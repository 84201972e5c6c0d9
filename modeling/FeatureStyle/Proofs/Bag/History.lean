import FeatureStyle.Proofs.Bag.Coherence

/-!
# Histories of the bag store

The operations of a store as data, and what holds after any sequence of them. A store is consistent:
it is within its capacity, its hashes tell its slots, and the queue lists every slot, so that
eviction ends because there is room. A bag is found exactly if it was stored for its feature last
and was neither dropped nor evicted since. The main statement is `consistent_after`.
-/

namespace FeatureStyle

inductive StoreCall (σ : Type)
  | insert (tree : Tree) (feature : Feature) (bag : Bag σ)
  | forget (feature : FeatureId)
  | clear

/-- The features whose bags an operation is about. -/
def StoreCall.Concerns {σ : Type} : StoreCall σ → FeatureId → Prop
  | insert _ feature _, id => feature.id = id
  | forget feature, id => feature = id
  | clear, _ => True

namespace BagStore

variable {σ : Type} {hash : Tree → UInt64} {s : BagStore σ} {id : FeatureId} {stored : StoredBag σ}

/-- Carries out an operation under a hash of trees. Gives the features evicted. -/
def perform (hash : Tree → UInt64) (s : BagStore σ) : StoreCall σ → List FeatureId × BagStore σ
  | .insert tree feature bag => s.insert (hash tree) tree feature bag
  | .forget feature => ([], (s.forget feature).2)
  | .clear => ([], s.clear)

def after (hash : Tree → UInt64) (s : BagStore σ) (calls : List (StoreCall σ)) : BagStore σ :=
  calls.foldl (fun s call => (s.perform hash call).2) s

/-- An operation neither is about the bag of a feature nor evicts it. -/
def Spares (hash : Tree → UInt64) (s : BagStore σ) (call : StoreCall σ) (id : FeatureId) : Prop :=
  ¬ call.Concerns id ∧ id ∉ (s.perform hash call).1

def SparesEach (hash : Tree → UInt64) (s : BagStore σ) : List (StoreCall σ) → FeatureId → Prop
  | [], _ => True
  | call :: calls, id => s.Spares hash call id ∧ (s.perform hash call).2.SparesEach hash calls id

/-- Among operations, the last one about the bag of a feature stored it, and it was not evicted
since. -/
def StoredLast (hash : Tree → UInt64) (s : BagStore σ) (calls : List (StoreCall σ))
    (id : FeatureId) (stored : StoredBag σ) : Prop :=
  ∃ before rest, calls = before ++ .insert stored.tree stored.feature stored.bag :: rest ∧
    stored.feature.id = id ∧
    ((s.after hash before).perform hash
      (.insert stored.tree stored.feature stored.bag)).2.SparesEach hash rest id

/-- The store with room made for a bag of a feature. -/
def vacated (s : BagStore σ) (id : FeatureId) : List FeatureId × BagStore σ :=
  (s.forget id).2.makeRoom (s.forget id).2.queue

structure Consistent (hash : Tree → UInt64) (s : BagStore σ) : Prop extends s.Coherent where
  functional : Table.Functional s.bags
  size_le : s.size ≤ s.capacity
  hashed : ∀ slot stored, s.bags.get? slot = some stored → hash stored.tree = slot.hash
  queued : ∀ slot, s.bags.contains slot = true → slot ∈ s.queue

theorem consistent_empty (hash : Tree → UInt64) (capacity : Nat) :
    (empty capacity : BagStore σ).Consistent hash where
  toCoherent := coherent_empty capacity
  functional := List.nodup_nil
  size_le := Nat.zero_le capacity
  hashed := by
    intro slot stored h
    cases h
  queued := by
    intro slot h
    cases h

theorem contains_iff {slot : Slot} :
    s.bags.contains slot = true ↔ ∃ stored, s.bags.get? slot = some stored := by
  rw [Table.contains, Option.isSome_iff_exists]

theorem Coherent.slot_eq (h : s.Coherent) {slot slot' : Slot} (hslot : s.bags.contains slot = true)
    (hslot' : s.bags.contains slot' = true) (hfeature : slot.feature = slot'.feature) :
    slot = slot' := by
  have hhash := (h.slots slot).mp hslot
  rw [hfeature, (h.slots slot').mp hslot'] at hhash
  cases slot
  cases slot'
  cases hfeature
  cases hhash
  rfl

theorem Consistent.bags_get?_eq_some_iff (h : s.Consistent hash) {slot : Slot} :
    s.bags.get? slot = some stored ↔
      s.Keeps slot.feature stored ∧ hash stored.tree = slot.hash := by
  constructor
  · intro hget
    exact ⟨⟨slot.hash, hget⟩, h.hashed slot stored hget⟩
  · rintro ⟨⟨hash', hget⟩, hhash⟩
    have hslot := h.hashed _ stored hget
    rw [hhash] at hslot
    cases slot
    cases hslot
    exact hget

private theorem Consistent.forget (h : s.Consistent hash) (feature : FeatureId) :
    (s.forget feature).2.Consistent hash where
  toCoherent := h.toCoherent.forget feature
  functional := by
    rw [BagStore.forget]
    split
    · exact h.functional
    · exact Table.functional_erase h.functional _
  size_le := by
    rw [BagStore.forget]
    split
    · exact h.size_le
    · exact Nat.le_trans (List.length_filter_le ..) h.size_le
  hashed := by
    intro slot stored hget
    rw [bags_forget h.toCoherent] at hget
    split at hget
    · cases hget
    · exact h.hashed slot stored hget
  queued := by
    intro slot hcontains
    obtain ⟨stored, hget⟩ := contains_iff.mp hcontains
    rw [bags_forget h.toCoherent] at hget
    have hqueue : (s.forget feature).2.queue = s.queue := by
      rw [BagStore.forget]
      split <;> rfl
    rw [hqueue]
    split at hget
    · cases hget
    · exact h.queued slot (contains_iff.mpr ⟨stored, hget⟩)

theorem Coherent.forget_eq (h : s.Coherent) {slot : Slot} (hslot : s.bags.contains slot = true) :
    ({ s with bags := s.bags.erase slot, hashes := s.hashes.erase slot.feature } : BagStore σ) =
      (s.forget slot.feature).2 := by
  rw [BagStore.forget, (h.slots slot).mp hslot]

theorem forget_with_queue (s : BagStore σ) (queue : List Slot) (feature : FeatureId) :
    (({ s with queue } : BagStore σ).forget feature).2 = { (s.forget feature).2 with queue } := by
  simp only [BagStore.forget]
  split <;> rfl

theorem Consistent.pop {oldest : Slot} {queue : List Slot}
    (h : ({ s with queue := oldest :: queue } : BagStore σ).Consistent hash)
    (hempty : ¬ s.bags.contains oldest = true) :
    ({ s with queue } : BagStore σ).Consistent hash where
  toCoherent := ⟨h.slots, h.owners⟩
  functional := h.functional
  size_le := h.size_le
  hashed := h.hashed
  queued := by
    intro slot hcontains
    have hne : slot ≠ oldest := fun heq => hempty (heq ▸ hcontains)
    exact (List.mem_cons.mp (h.queued slot hcontains)).resolve_left hne

theorem makeRoom_of_size_lt (h : s.size < s.capacity) (queue : List Slot) :
    s.makeRoom queue = ([], { s with queue }) := by
  cases queue with
  | nil => rfl
  | cons oldest queue =>
    rw [size] at h
    rw [makeRoom, if_pos h]

theorem makeRoom_cons_of_full (h : ¬ s.size < s.capacity) (hs : s.Coherent) (oldest : Slot)
    (queue : List Slot) :
    s.makeRoom (oldest :: queue) =
      if s.bags.contains oldest then
        (oldest.feature :: ((s.forget oldest.feature).2.makeRoom queue).1,
          ((s.forget oldest.feature).2.makeRoom queue).2)
      else s.makeRoom queue := by
  rw [size] at h
  rw [makeRoom, if_neg h]
  split
  · rename_i hslot
    rw [← hs.forget_eq hslot]
  · rfl

theorem Consistent.makeRoom {queue : List Slot}
    (h : ({ s with queue } : BagStore σ).Consistent hash) (hcapacity : 0 < s.capacity) :
    (s.makeRoom queue).2.Consistent hash ∧ (s.makeRoom queue).2.size < s.capacity := by
  induction queue generalizing s with
  | nil =>
    -- The queue lists the slots of all bags, so none are left where it ends.
    have hbags : s.bags = [] := by
      cases hs : s.bags with
      | nil => rfl
      | cons entry rest =>
        have hget : s.bags.get? entry.1 = some entry.2 := by rw [hs, Table.get?_cons, if_pos rfl]
        cases h.queued entry.1 (contains_iff.mpr ⟨entry.2, hget⟩)
    have hsize : s.size = 0 := by rw [size, hbags]; rfl
    have hlt : s.size < s.capacity := by omega
    rw [makeRoom_of_size_lt hlt]
    exact ⟨h, hlt⟩
  | cons oldest queue ih =>
    by_cases hroom : s.size < s.capacity
    · rw [makeRoom_of_size_lt hroom]
      exact ⟨h, hroom⟩
    · have hs : s.Coherent := ⟨h.slots, h.owners⟩
      rw [makeRoom_cons_of_full hroom hs]
      split
      · have hdropped := h.forget oldest.feature
        rw [forget_with_queue] at hdropped
        have hgone : ¬ (s.forget oldest.feature).2.bags.contains oldest = true := by
          rw [contains_iff, bags_forget hs, if_pos rfl]
          simp
        have hcapacity' : 0 < (s.forget oldest.feature).2.capacity := by
          rw [forget_capacity]
          exact hcapacity
        have hrest := ih (hdropped.pop hgone) hcapacity'
        rw [forget_capacity] at hrest
        exact hrest
      · rename_i hempty
        exact ih (h.pop hempty) hcapacity

theorem keeps_makeRoom_iff (h : s.Coherent) (queue : List Slot) :
    (s.makeRoom queue).2.Keeps id stored ↔ id ∉ (s.makeRoom queue).1 ∧ s.Keeps id stored := by
  induction queue generalizing s with
  | nil => simp [BagStore.makeRoom, Keeps]
  | cons oldest queue ih =>
    by_cases hroom : s.size < s.capacity
    · rw [makeRoom_of_size_lt hroom]
      simp [Keeps]
    · rw [makeRoom_cons_of_full hroom h]
      split
      · have hdropped := ih (h.forget oldest.feature)
        simp only [hdropped, keeps_forget_iff h, List.mem_cons, not_or]
        constructor
        · rintro ⟨hnot, hne, hkeeps⟩
          exact ⟨⟨hne, hnot⟩, hkeeps⟩
        · rintro ⟨⟨hne, hnot⟩, hkeeps⟩
          exact ⟨hnot, hne, hkeeps⟩
      · exact ih h

section Storing

variable {tree : Tree} {feature : Feature} {bag : Bag σ}

theorem Consistent.vacated (h : s.Consistent hash) (hcapacity : 0 < s.capacity) (id : FeatureId) :
    (s.vacated id).2.Consistent hash ∧ (s.vacated id).2.size < s.capacity := by
  have hforget := h.forget id
  have hroom := Consistent.makeRoom (s := (s.forget id).2) hforget
    (by rw [forget_capacity]; exact hcapacity)
  rw [forget_capacity] at hroom
  exact hroom

private theorem keeps_vacated_iff (h : s.Coherent) (id other : FeatureId) (stored : StoredBag σ) :
    (s.vacated id).2.Keeps other stored ↔
      other ∉ (s.vacated id).1 ∧ other ≠ id ∧ s.Keeps other stored := by
  rw [vacated, keeps_makeRoom_iff (h.forget id), keeps_forget_iff h]

theorem insert_eq_vacated (hcapacity : s.capacity ≠ 0) :
    s.insert (hash tree) tree feature bag = ((s.vacated feature.id).1,
      ({ (s.vacated feature.id).2 with
        bags := (s.vacated feature.id).2.bags.put ⟨feature.id, hash tree⟩ ⟨tree, feature, bag⟩
        hashes := (s.vacated feature.id).2.hashes.put feature.id (hash tree)
        queue := (s.vacated feature.id).2.queue ++ [⟨feature.id, hash tree⟩] } :
          BagStore σ).shortenQueue) := by
  rw [BagStore.insert, if_neg hcapacity]
  rfl

theorem bags_insert (hcapacity : s.capacity ≠ 0) :
    (s.insert (hash tree) tree feature bag).2.bags =
      (s.vacated feature.id).2.bags.put ⟨feature.id, hash tree⟩ ⟨tree, feature, bag⟩ := by
  rw [insert_eq_vacated hcapacity, bags_shortenQueue]

private theorem mem_queue_shortenQueue {slot : Slot} (hmem : slot ∈ s.queue)
    (hcontains : s.bags.contains slot = true) : slot ∈ s.shortenQueue.queue := by
  rw [BagStore.shortenQueue]
  split
  · exact List.mem_filter.mpr ⟨hmem, hcontains⟩
  · exact hmem

private theorem Consistent.insert (h : s.Consistent hash) :
    (s.insert (hash tree) tree feature bag).2.Consistent hash := by
  by_cases hzero : s.capacity = 0
  · rw [BagStore.insert, if_pos hzero]
    exact h
  · obtain ⟨hvacated, hroom⟩ := h.vacated (Nat.pos_of_ne_zero hzero) feature.id
    refine ⟨h.toCoherent.insert, ?_, ?_, ?_, ?_⟩
    · rw [bags_insert hzero]
      exact Table.functional_put hvacated.functional _ _
    · rw [insert_capacity, size, bags_insert hzero, Table.put, List.length_cons]
      have herase : (Table.erase (s.vacated feature.id).2.bags ⟨feature.id, hash tree⟩).length ≤
          (s.vacated feature.id).2.size := List.length_filter_le ..
      omega
    · intro slot stored hget
      rw [bags_insert hzero, Table.get?_put] at hget
      split at hget
      · rename_i hslot
        cases hget
        rw [← hslot]
      · exact hvacated.hashed slot stored hget
    · intro slot hcontains
      rw [insert_eq_vacated hzero] at hcontains ⊢
      rw [bags_shortenQueue] at hcontains
      refine mem_queue_shortenQueue (List.mem_append.mpr ?_) hcontains
      rw [contains_iff] at hcontains
      obtain ⟨stored, hget⟩ := hcontains
      rw [Table.get?_put] at hget
      split at hget
      · rename_i hslot
        exact .inr (List.mem_singleton.mpr hslot.symm)
      · exact .inl (hvacated.queued slot (contains_iff.mpr ⟨stored, hget⟩))

/-- A store keeps the bag it has just stored and those of the other features that it did not
evict. -/
theorem keeps_insert_iff (h : s.Consistent hash) (hcapacity : s.capacity ≠ 0) {other : FeatureId} :
    (s.insert (hash tree) tree feature bag).2.Keeps other stored ↔
      other = feature.id ∧ stored = ⟨tree, feature, bag⟩ ∨
        other ≠ feature.id ∧ other ∉ (s.insert (hash tree) tree feature bag).1 ∧
          s.Keeps other stored := by
  have hevicted : (s.insert (hash tree) tree feature bag).1 = (s.vacated feature.id).1 := by
    rw [insert_eq_vacated hcapacity]
  have hvacated := keeps_vacated_iff h.toCoherent feature.id other stored
  simp only [Keeps, bags_insert hcapacity, Table.get?_put, hevicted] at hvacated ⊢
  by_cases hother : other = feature.id
  · have hnone : ∀ hash', (s.vacated feature.id).2.bags.get? ⟨other, hash'⟩ ≠ some stored :=
      fun hash' hget => (hvacated.mp ⟨hash', hget⟩).2.1 hother
    simp only [hother, true_and, ne_eq, not_true_eq_false, false_and, or_false]
    constructor
    · rintro ⟨hash', hget⟩
      split at hget
      · exact (Option.some.inj hget).symm
      · rw [hother] at hnone
        exact absurd hget (hnone hash')
    · rintro rfl
      exact ⟨hash tree, if_pos rfl⟩
  · have hslot : ∀ hash', (⟨feature.id, hash tree⟩ : Slot) ≠ ⟨other, hash'⟩ := by
      intro hash' heq
      exact hother (congrArg Slot.feature heq).symm
    simp only [hslot, ↓reduceIte, hother, false_and, false_or, ne_eq, not_false_eq_true, true_and]
    rw [hvacated]
    simp only [hother, ne_eq, not_false_eq_true, true_and]

private theorem Consistent.capacity_pos (h : s.Consistent hash) (hkeeps : s.Keeps id stored) :
    0 < s.capacity := by
  obtain ⟨hash', hget⟩ := hkeeps
  have hsize : 0 < s.size := List.length_pos_of_mem (Table.mem_of_get? hget)
  exact Nat.lt_of_lt_of_le hsize h.size_le

theorem Consistent.size_forget_lt (h : s.Consistent hash)
    (hroom : (∃ stored, s.Keeps id stored) ∨ s.size < s.capacity) :
    (s.forget id).2.size < (s.forget id).2.capacity := by
  rw [forget_capacity]
  have hle := h.size_le
  rcases hroom with ⟨stored, hash', hget⟩ | hlt
  · have hcontains : s.bags.contains ⟨id, hash'⟩ = true := contains_iff.mpr ⟨stored, hget⟩
    have hhash := (h.slots _).mp hcontains
    have hlength := Table.length_erase_of_get? h.functional hget
    rw [BagStore.forget, hhash]
    rw [size] at hle ⊢
    dsimp only at hlength ⊢
    omega
  · rw [BagStore.forget]
    split
    · exact hlt
    · exact Nat.lt_of_le_of_lt (List.length_filter_le ..) hlt

theorem vacated_of_room (h : s.Consistent hash)
    (hroom : (∃ stored, s.Keeps id stored) ∨ s.size < s.capacity) : (s.vacated id).1 = [] := by
  rw [vacated, makeRoom_of_size_lt (h.size_forget_lt hroom)]

theorem Consistent.size_insert (h : s.Consistent hash) (hkeeps : s.Keeps feature.id stored) :
    (s.insert (hash tree) tree feature bag).2.size = s.size := by
  have hcapacity := h.capacity_pos hkeeps
  have hroom := h.size_forget_lt (.inl ⟨stored, hkeeps⟩)
  obtain ⟨hash', hget⟩ := hkeeps
  have hhash := (h.slots ⟨feature.id, hash'⟩).mp (contains_iff.mpr ⟨stored, hget⟩)
  have hforget : (s.forget feature.id).2.bags = s.bags.erase ⟨feature.id, hash'⟩ := by
    rw [BagStore.forget, hhash]
  have hvacated : (s.vacated feature.id).2.bags = s.bags.erase ⟨feature.id, hash'⟩ := by
    rw [BagStore.vacated, makeRoom_of_size_lt hroom]
    exact hforget
  have hempty : Table.get? (s.bags.erase ⟨feature.id, hash'⟩) ⟨feature.id, hash tree⟩ = none := by
    rw [← hforget, bags_forget h.toCoherent, if_pos rfl]
  rw [size, bags_insert (Nat.ne_of_gt hcapacity), hvacated, Table.put,
    Table.erase_of_get?_eq_none hempty, List.length_cons,
    Table.length_erase_of_get? h.functional hget, size]

end Storing

section Histories

variable {call : StoreCall σ} {calls : List (StoreCall σ)}

theorem Consistent.perform (h : s.Consistent hash) (call : StoreCall σ) :
    (s.perform hash call).2.Consistent hash := by
  cases call with
  | insert tree feature bag => exact h.insert
  | forget feature => exact h.forget feature
  | clear => exact consistent_empty hash s.capacity

theorem capacity_perform (s : BagStore σ) (call : StoreCall σ) :
    (s.perform hash call).2.capacity = s.capacity := by
  cases call with
  | insert tree feature bag => exact insert_capacity s
  | forget feature => exact forget_capacity s feature
  | clear => rfl

theorem keeps_perform_iff (h : s.Consistent hash) (call : StoreCall σ) :
    (s.perform hash call).2.Keeps id stored ↔
      0 < s.capacity ∧ call = .insert stored.tree stored.feature stored.bag ∧
          stored.feature.id = id ∨
        s.Spares hash call id ∧ s.Keeps id stored := by
  cases call with
  | insert tree feature bag =>
    by_cases hzero : s.capacity = 0
    · have hkeeps : ¬ s.Keeps id stored := fun hkeeps => by
        have hpos := h.capacity_pos hkeeps
        omega
      simp [BagStore.perform, BagStore.insert, hzero, hkeeps]
    · have hpos := Nat.pos_of_ne_zero hzero
      have hinsert : (StoreCall.insert tree feature bag =
          .insert stored.tree stored.feature stored.bag ∧ stored.feature.id = id) ↔
            id = feature.id ∧ stored = ⟨tree, feature, bag⟩ := by
        constructor
        · rintro ⟨heq, hid⟩
          cases heq
          exact ⟨hid.symm, rfl⟩
        · rintro ⟨hid, rfl⟩
          exact ⟨rfl, hid.symm⟩
      rw [BagStore.perform, keeps_insert_iff h hzero, hinsert, Spares, StoreCall.Concerns,
        BagStore.perform, and_assoc]
      simp only [hpos, true_and, ne_eq, eq_comm (a := id)]
  | forget feature =>
    simp only [BagStore.perform, Spares, StoreCall.Concerns, keeps_forget_iff h.toCoherent,
      reduceCtorEq, false_and, and_false, false_or, List.not_mem_nil, not_false_eq_true, and_true,
      ne_eq, eq_comm (a := id)]
  | clear =>
    simp [BagStore.perform, Spares, StoreCall.Concerns, BagStore.clear, not_keeps_empty]

private theorem after_cons (s : BagStore σ) (call : StoreCall σ) (calls : List (StoreCall σ)) :
    s.after hash (call :: calls) = (s.perform hash call).2.after hash calls := rfl

theorem Consistent.after (h : s.Consistent hash) (calls : List (StoreCall σ)) :
    (s.after hash calls).Consistent hash := by
  induction calls generalizing s with
  | nil => exact h
  | cons call calls ih => exact ih (h.perform call)

theorem capacity_after (s : BagStore σ) (calls : List (StoreCall σ)) :
    (s.after hash calls).capacity = s.capacity := by
  induction calls generalizing s with
  | nil => rfl
  | cons call calls ih => rw [after_cons, ih, capacity_perform]

private theorem storedLast_cons :
    s.StoredLast hash (call :: calls) id stored ↔
      call = .insert stored.tree stored.feature stored.bag ∧ stored.feature.id = id ∧
          (s.perform hash call).2.SparesEach hash calls id ∨
        (s.perform hash call).2.StoredLast hash calls id stored := by
  constructor
  · rintro ⟨before, rest, hcalls, hid, hspares⟩
    cases before with
    | nil =>
      cases hcalls
      exact .inl ⟨rfl, hid, hspares⟩
    | cons first before =>
      cases hcalls
      exact .inr ⟨before, rest, rfl, hid, hspares⟩
  · rintro (⟨rfl, hid, hspares⟩ | ⟨before, rest, rfl, hid, hspares⟩)
    · exact ⟨[], calls, rfl, hid, hspares⟩
    · exact ⟨call :: before, rest, rfl, hid, hspares⟩

/-- After operations a store keeps the bags that they stored last, and the bags it had before and
that they all spared. -/
theorem keeps_after_iff (h : s.Consistent hash) (calls : List (StoreCall σ)) :
    (s.after hash calls).Keeps id stored ↔
      0 < s.capacity ∧ s.StoredLast hash calls id stored ∨
        s.SparesEach hash calls id ∧ s.Keeps id stored := by
  induction calls generalizing s with
  | nil => simp [BagStore.after, StoredLast, SparesEach]
  | cons call calls ih =>
    rw [after_cons, ih (h.perform call), keeps_perform_iff h, storedLast_cons, capacity_perform,
      SparesEach]
    constructor
    · rintro (⟨hpos, hlast⟩ | ⟨hrest, ⟨hpos, hcall, hid⟩ | ⟨hfirst, hkeeps⟩⟩)
      · exact .inl ⟨hpos, .inr hlast⟩
      · exact .inl ⟨hpos, .inl ⟨hcall, hid, hrest⟩⟩
      · exact .inr ⟨⟨hfirst, hrest⟩, hkeeps⟩
    · rintro (⟨hpos, ⟨hcall, hid, hrest⟩ | hlast⟩ | ⟨⟨hfirst, hrest⟩, hkeeps⟩)
      · exact .inr ⟨hrest, .inl ⟨hpos, hcall, hid⟩⟩
      · exact .inl ⟨hpos, hlast⟩
      · exact .inr ⟨hrest, .inr ⟨hfirst, hkeeps⟩⟩

private theorem keeps_after_empty_iff (hash : Tree → UInt64) (capacity : Nat)
    (calls : List (StoreCall σ)) :
    ((empty capacity : BagStore σ).after hash calls).Keeps id stored ↔
      0 < capacity ∧ (empty capacity : BagStore σ).StoredLast hash calls id stored :=
  (keeps_after_iff (consistent_empty hash capacity) calls).trans
    (or_iff_left fun h => not_keeps_empty h.2)

/-- A bag is found exactly if it is kept for the feature under the hash asked for, and was stored
with an equal tree and an equal feature. -/
theorem get?_eq_some_iff (h : s.Consistent hash) {hash' : UInt64} {tree : Tree} {feature : Feature}
    {bag : Bag σ} :
    s.get? hash' tree feature = some bag ↔ ∃ stored, s.Keeps feature.id stored ∧
      hash stored.tree = hash' ∧ (stored.tree == tree) = true ∧
      (stored.feature == feature) = true ∧ stored.bag = bag := by
  rw [get?]
  constructor
  · intro hget
    split at hget
    · rename_i stored hstored
      split at hget
      · rename_i hequal
        rw [Bool.and_eq_true] at hequal
        exact ⟨stored, ⟨hash', hstored⟩, h.hashed _ stored hstored, hequal.1, hequal.2,
          Option.some.inj hget⟩
      · cases hget
    · cases hget
  · rintro ⟨stored, hkeeps, hhash, htree, hfeature, rfl⟩
    have hstored : s.bags.get? ⟨feature.id, hash'⟩ = some stored :=
      h.bags_get?_eq_some_iff.mpr ⟨hkeeps, hhash⟩
    rw [hstored]
    exact if_pos (Bool.and_eq_true_iff.mpr ⟨htree, hfeature⟩)

theorem keeps_insert_of_room (h : s.Consistent hash) {tree : Tree} {feature : Feature} {bag : Bag σ}
    (hroom : (∃ stored, s.Keeps feature.id stored) ∨ s.size < s.capacity) :
    (s.insert (hash tree) tree feature bag).1 = [] ∧
      ∀ other, other ≠ feature.id → ∀ stored,
        (s.insert (hash tree) tree feature bag).2.Keeps other stored ↔ s.Keeps other stored := by
  have hpos : s.capacity ≠ 0 := by
    rcases hroom with ⟨stored, hkeeps⟩ | hlt
    · exact Nat.ne_of_gt (h.capacity_pos hkeeps)
    · omega
  have hevicted : (s.insert (hash tree) tree feature bag).1 = [] := by
    rw [insert_eq_vacated hpos]
    exact vacated_of_room h hroom
  refine ⟨hevicted, ?_⟩
  intro other hother stored
  rw [keeps_insert_iff h hpos, hevicted]
  simp [hother]

/-- Whatever operations a store goes through, it is consistent and has at most one bag a feature.
Eviction ends with room to spare. A bag is found exactly if it was stored for its feature last, was
neither dropped nor evicted since, and was stored with an equal tree and an equal feature. For a
feature that has a bag, or while there is room, nothing is evicted. -/
theorem consistent_after (hash : Tree → UInt64) (capacity : Nat) (calls : List (StoreCall σ)) :
    let s := (empty capacity : BagStore σ).after hash calls
    s.capacity = capacity ∧ s.Consistent hash ∧
      (∀ slot slot', s.bags.contains slot = true → s.bags.contains slot' = true →
        slot.feature = slot'.feature → slot = slot') ∧
      (0 < capacity → ∀ id, (s.vacated id).2.size < capacity) ∧
      (∀ hash' tree feature bag, s.get? hash' tree feature = some bag ↔ 0 < capacity ∧
        ∃ stored, (empty capacity : BagStore σ).StoredLast hash calls feature.id stored ∧
          hash stored.tree = hash' ∧ (stored.tree == tree) = true ∧
          (stored.feature == feature) = true ∧ stored.bag = bag) ∧
      ∀ tree feature bag, (∃ stored, s.Keeps feature.id stored) ∨ s.size < capacity →
        (s.insert (hash tree) tree feature bag).1 = [] ∧
          ∀ other, other ≠ feature.id → ∀ stored,
            (s.insert (hash tree) tree feature bag).2.Keeps other stored ↔
              s.Keeps other stored := by
  intro s
  have hcapacity : s.capacity = capacity := capacity_after (empty capacity) calls
  have hs : s.Consistent hash := (consistent_empty hash capacity).after calls
  refine ⟨hcapacity, hs, fun _ _ => hs.slot_eq, ?_, ?_, ?_⟩
  · intro hpos id
    have hroom := hs.vacated (hcapacity ▸ hpos) id
    rw [hcapacity] at hroom
    exact hroom.2
  · intro hash' tree feature bag
    simp only [get?_eq_some_iff hs, s, keeps_after_empty_iff, and_assoc, exists_and_left]
  · intro tree feature bag hroom
    rw [← hcapacity] at hroom
    exact keeps_insert_of_room hs hroom

end Histories

end BagStore
end FeatureStyle
