import FeatureStyle.Proofs.Entries
import FeatureStyle.Bag.Store

/-!
# Coherence of the bag store

The hashes of a coherent store tell exactly the slots that are filled, so a feature has at most one
bag. Storing, forgetting and evicting keep a store coherent; this file says which bags they keep.
-/

namespace FeatureStyle.BagStore

variable {σ : Type}

structure Coherent (s : BagStore σ) : Prop where
  slots : ∀ slot, s.bags.contains slot = true ↔ s.hashes.get? slot.feature = some slot.hash
  owners : ∀ slot stored, s.bags.get? slot = some stored → stored.feature.id = slot.feature

/-- A bag is kept for a feature. -/
def Keeps (s : BagStore σ) (feature : FeatureId) (stored : StoredBag σ) : Prop :=
  ∃ hash, s.bags.get? ⟨feature, hash⟩ = some stored

theorem keeps_of_get? {s : BagStore σ} {hash : UInt64} {tree : Tree} {feature : Feature}
    {bag : Bag σ} (h : s.get? hash tree feature = some bag) :
    ∃ stored, s.Keeps feature.id stored ∧ stored.bag = bag ∧ (stored.tree == tree) = true ∧
      (stored.feature == feature) = true := by
  rw [get?] at h
  split at h
  · rename_i stored hstored
    split at h
    · rename_i hequal
      rw [Bool.and_eq_true] at hequal
      exact ⟨stored, ⟨hash, hstored⟩, Option.some.inj h, hequal⟩
    · cases h
  · cases h

theorem coherent_empty (capacity : Nat) : (empty capacity : BagStore σ).Coherent where
  slots := by simp [empty, Table.contains]
  owners := by simp [empty]

theorem not_keeps_empty {capacity : Nat} {feature : FeatureId} {stored : StoredBag σ} :
    ¬ (empty capacity : BagStore σ).Keeps feature stored := by
  rintro ⟨hash, h⟩
  cases h

private theorem contains_erase (bags : Table Slot (StoredBag σ)) (slot slot' : Slot) :
    (bags.erase slot).contains slot' = (decide (slot ≠ slot') && bags.contains slot') := by
  rw [Table.contains, Table.get?_erase, Table.contains]
  by_cases h : slot = slot' <;> simp [h]

private theorem Coherent.drop {s : BagStore σ} (h : s.Coherent) (slot : Slot)
    (hslot : s.hashes.get? slot.feature = some slot.hash) (queue : List Slot) :
    ({ s with bags := s.bags.erase slot, hashes := s.hashes.erase slot.feature, queue } :
      BagStore σ).Coherent where
  slots := by
    intro other
    rw [contains_erase, Table.get?_erase, Bool.and_eq_true, h.slots, decide_eq_true_iff]
    constructor
    · rintro ⟨hne, hother⟩
      rw [if_neg]
      · exact hother
      · intro hfeature
        apply hne
        rw [← hfeature, hslot] at hother
        cases slot
        cases other
        simp_all
    · intro hother
      split at hother
      · cases hother
      · rename_i hfeature
        exact ⟨fun heq => hfeature (heq ▸ rfl), hother⟩
  owners := by
    intro other stored hstored
    rw [Table.get?_erase] at hstored
    split at hstored
    · cases hstored
    · exact h.owners other stored hstored

private theorem Coherent.with_queue {s : BagStore σ} (h : s.Coherent) (queue : List Slot) :
    ({ s with queue } : BagStore σ).Coherent := ⟨h.slots, h.owners⟩

theorem Coherent.forget {s : BagStore σ} (h : s.Coherent) (feature : FeatureId) :
    (s.forget feature).2.Coherent := by
  rw [BagStore.forget]
  split
  · exact h
  · rename_i hash hhash
    exact h.drop ⟨feature, hash⟩ hhash s.queue

theorem bags_forget {s : BagStore σ} (h : s.Coherent) (feature : FeatureId) (slot : Slot) :
    (s.forget feature).2.bags.get? slot =
      if slot.feature = feature then none else s.bags.get? slot := by
  rw [BagStore.forget]
  split
  · rename_i hnone
    split
    · rename_i hfeature
      have hempty : ¬ s.bags.contains slot = true := by
        rw [h.slots, hfeature, hnone]
        simp
      simpa [Table.contains] using hempty
    · rfl
  · rename_i hash hhash
    rw [Table.get?_erase]
    by_cases hfeature : slot.feature = feature
    · rw [if_pos hfeature]
      split
      · rfl
      · rename_i hne
        have hempty : ¬ s.bags.contains slot = true := by
          rw [h.slots, hfeature, hhash]
          intro heq
          apply hne
          cases slot
          simp_all
        simpa [Table.contains] using hempty
    · rw [if_neg hfeature, if_neg]
      rintro rfl
      exact hfeature rfl

theorem keeps_forget_iff {s : BagStore σ} (h : s.Coherent) {feature other : FeatureId}
    {stored : StoredBag σ} :
    (s.forget feature).2.Keeps other stored ↔ other ≠ feature ∧ s.Keeps other stored := by
  simp only [Keeps, bags_forget h]
  by_cases hother : other = feature <;> simp [hother]

@[simp] theorem forget_capacity (s : BagStore σ) (feature : FeatureId) :
    (s.forget feature).2.capacity = s.capacity := by
  rw [BagStore.forget]
  split <;> rfl

private theorem Coherent.makeRoom {s : BagStore σ} (h : s.Coherent) (queue : List Slot) :
    (s.makeRoom queue).2.Coherent := by
  induction queue generalizing s with
  | nil => exact h.with_queue []
  | cons oldest queue ih =>
    rw [BagStore.makeRoom]
    split
    · exact h.with_queue _
    · split
      · rename_i hfilled
        exact ih (h.drop oldest ((h.slots oldest).mp hfilled) s.queue)
      · exact ih h

theorem bags_makeRoom {s : BagStore σ} {queue : List Slot} {slot : Slot} {stored : StoredBag σ}
    (h : (s.makeRoom queue).2.bags.get? slot = some stored) : s.bags.get? slot = some stored := by
  induction queue generalizing s with
  | nil => exact h
  | cons oldest queue ih =>
    rw [makeRoom] at h
    split at h
    · exact h
    · split at h
      · have hdropped := ih h
        rw [Table.get?_erase] at hdropped
        split at hdropped
        · cases hdropped
        · exact hdropped
      · exact ih h

private theorem Coherent.shortenQueue {s : BagStore σ} (h : s.Coherent) :
    s.shortenQueue.Coherent := by
  rw [BagStore.shortenQueue]
  split
  · exact h.with_queue _
  · exact h

theorem bags_shortenQueue (s : BagStore σ) : s.shortenQueue.bags = s.bags := by
  rw [shortenQueue]
  split <;> rfl

variable {s : BagStore σ} {hash : UInt64} {tree : Tree} {feature : Feature} {bag : Bag σ}

private theorem Coherent.fill (h : s.Coherent) (hfree : s.hashes.get? feature.id = none)
    (queue : List Slot) :
    ({ s with
      bags := s.bags.put ⟨feature.id, hash⟩ ⟨tree, feature, bag⟩
      hashes := s.hashes.put feature.id hash
      queue } : BagStore σ).Coherent where
  slots := by
    intro slot
    rw [Table.contains, Table.get?_put, Table.get?_put]
    by_cases hfeature : feature.id = slot.feature
    · have hempty : ¬ s.bags.contains slot = true := by
        rw [h.slots, ← hfeature, hfree]
        simp
      rw [if_pos hfeature]
      by_cases hhash : hash = slot.hash
      · have heq : (⟨feature.id, hash⟩ : Slot) = slot := by rw [hfeature, hhash]
        rw [if_pos heq, hhash]
        simp
      · have hne : (⟨feature.id, hash⟩ : Slot) ≠ slot := fun heq => hhash (heq ▸ rfl)
        rw [if_neg hne]
        simpa [Table.contains, hhash] using hempty
    · have hne : (⟨feature.id, hash⟩ : Slot) ≠ slot := fun heq => hfeature (heq ▸ rfl)
      rw [if_neg hfeature, if_neg hne]
      exact h.slots slot
  owners := by
    intro slot stored hstored
    rw [Table.get?_put] at hstored
    split at hstored
    · rename_i hslot
      cases hstored
      rw [← hslot]
    · exact h.owners slot stored hstored

private theorem hashes_makeRoom {queue : List Slot} {id : FeatureId}
    (h : s.hashes.get? id = none) : (s.makeRoom queue).2.hashes.get? id = none := by
  induction queue generalizing s with
  | nil => exact h
  | cons oldest queue ih =>
    rw [makeRoom]
    split
    · exact h
    · split
      · apply ih
        rw [Table.get?_erase]
        split
        · rfl
        · exact h
      · exact ih h

private theorem hashes_forget (s : BagStore σ) (id : FeatureId) :
    (s.forget id).2.hashes.get? id = none := by
  rw [forget]
  split
  · assumption
  · rw [Table.get?_erase, if_pos rfl]

theorem Coherent.insert (h : s.Coherent) : (s.insert hash tree feature bag).2.Coherent := by
  rw [BagStore.insert]
  split
  · exact h
  · apply Coherent.shortenQueue
    apply ((h.forget feature.id).makeRoom _).fill
    exact hashes_makeRoom (hashes_forget s feature.id)

theorem makeRoom_capacity (s : BagStore σ) (queue : List Slot) :
    (s.makeRoom queue).2.capacity = s.capacity := by
  induction queue generalizing s with
  | nil => rfl
  | cons oldest queue ih =>
    rw [makeRoom]
    split
    · rfl
    · split
      · exact ih _
      · exact ih s

private theorem shortenQueue_capacity (s : BagStore σ) : s.shortenQueue.capacity = s.capacity := by
  rw [shortenQueue]
  split <;> rfl

@[simp] theorem insert_capacity (s : BagStore σ) :
    (s.insert hash tree feature bag).2.capacity = s.capacity := by
  rw [BagStore.insert]
  split
  · rfl
  · simp [shortenQueue_capacity, makeRoom_capacity]

/-- After storing, a feature has the new bag or one that it had, and the feature stored for has no
other than the new one. -/
theorem keeps_insert (h : s.Coherent) {other : FeatureId} {stored : StoredBag σ}
    (hkeeps : (s.insert hash tree feature bag).2.Keeps other stored) :
    other = feature.id ∧ stored = ⟨tree, feature, bag⟩ ∨
      (s.capacity = 0 ∨ other ≠ feature.id) ∧ s.Keeps other stored := by
  obtain ⟨hash', hget⟩ := hkeeps
  rw [BagStore.insert] at hget
  split at hget
  · rename_i hcapacity
    exact .inr ⟨.inl hcapacity, hash', hget⟩
  · simp only [bags_shortenQueue, Table.get?_put] at hget
    split at hget
    · rename_i hslot
      cases hslot
      cases hget
      exact .inl ⟨rfl, rfl⟩
    · have hdropped := bags_makeRoom hget
      rw [bags_forget h] at hdropped
      split at hdropped
      · cases hdropped
      · rename_i hother
        exact .inr ⟨.inr hother, hash', hdropped⟩

end FeatureStyle.BagStore
