import Mathlib.Data.List.DropRight
import FeatureStyle.Proofs.Bag.History

/-!
# The order of eviction

A bag that is stored is listed at the end of the queue, and a full store gives up the bag that the
first slot of the queue has. A slot that is still listed from a bag it had before is met too early:
the bag evicted is the one stored first exactly if all others are listed behind its last listing.
The main statement is `evicts_eldest_iff`.
-/

namespace FeatureStyle

def StoreCall.stores {σ : Type} (id : FeatureId) : StoreCall σ → Bool
  | insert _ feature _ => feature.id = id
  | forget _ | clear => false

namespace BagStore

variable {σ : Type} {hash : Tree → UInt64} {s : BagStore σ} {calls : List (StoreCall σ)}

/-- How many operations ago a bag was stored for a feature. -/
def age (calls : List (StoreCall σ)) (id : FeatureId) : Nat :=
  calls.reverse.findIdx fun call => call.stores id

/-- Of the bags that a store has after operations, none was stored before that of a feature. -/
structure Eldest (s : BagStore σ) (calls : List (StoreCall σ)) (id : FeatureId) : Prop where
  kept : ∃ stored, s.Keeps id stored
  first : ∀ other stored, s.Keeps other stored → age calls other ≤ age calls id

/-- The slots in the queue behind the last listing of a slot. -/
def behind (s : BagStore σ) (slot : Slot) : List Slot := s.queue.rtakeWhile (· ≠ slot)

/-- The first slot of the queue that has a bag. -/
def front? (s : BagStore σ) : Option Slot := s.queue.find? fun slot => s.bags.contains slot

/-- Of two slots that have bags, the one whose bag was stored later is listed behind the last listing
of the other. -/
def Ranked (calls : List (StoreCall σ)) (s : BagStore σ) : Prop :=
  ∀ slot other, s.bags.contains slot = true → s.bags.contains other = true →
    (other ∈ s.behind slot ↔ age calls other.feature < age calls slot.feature)

private theorem age_concat (calls : List (StoreCall σ)) (call : StoreCall σ) (id : FeatureId) :
    age (calls ++ [call]) id = if call.stores id then 0 else age calls id + 1 := by
  simp [age, List.findIdx_cons]

theorem after_concat (hash : Tree → UInt64) (s : BagStore σ) (calls : List (StoreCall σ))
    (call : StoreCall σ) :
    s.after hash (calls ++ [call]) = ((s.after hash calls).perform hash call).2 := by
  simp [after]

section Queues

variable {slot other : Slot}

private theorem rtakeWhile_filter {α : Type} [DecidableEq α] {p : α → Bool} {a : α}
    (ha : p a = true)
    (l : List α) :
    (l.filter p).rtakeWhile (· ≠ a) = (l.rtakeWhile (· ≠ a)).filter p := by
  induction l using List.reverseRecOn with
  | nil => rfl
  | append_singleton l b ih =>
    by_cases hb : b = a
    · simp [hb, ha]
    · cases hp : p b <;> simp_all

private theorem mem_behind_shortenQueue (hslot : s.bags.contains slot = true)
    (hother : s.bags.contains other = true) :
    other ∈ s.shortenQueue.behind slot ↔ other ∈ s.behind slot := by
  rw [shortenQueue]
  split
  · simp only [behind]
    rw [rtakeWhile_filter hslot, List.mem_filter, and_iff_left hother]
  · rfl

private theorem behind_concat {queue : List Slot} {last : Slot} (h : s.queue = queue ++ [last]) :
    s.behind slot =
      if last = slot then [] else ({ s with queue } : BagStore σ).behind slot ++ [last] := by
  by_cases hlast : last = slot <;> simp [behind, h, hlast]

private theorem behind_of_suffix {queue : List Slot} (h : queue <:+ s.queue)
    (hslot : slot ∈ queue) :
    s.behind slot = ({ s with queue } : BagStore σ).behind slot := by
  obtain ⟨front, h⟩ := h
  simp only [behind, ← h]
  induction queue using List.reverseRecOn generalizing s with
  | nil => cases hslot
  | append_singleton queue last ih =>
    by_cases hlast : last = slot
    · simp [← List.append_assoc, hlast]
    · have hqueue : slot ∈ queue := by simpa [Ne.symm hlast] using hslot
      have hrest := ih (s := { s with queue := front ++ queue }) hqueue rfl
      simp [← List.append_assoc, hlast] at hrest ⊢
      exact hrest

private theorem mem_behind_or (hslot : slot ∈ s.queue) (hother : other ∈ s.queue)
    (hne : slot ≠ other) :
    slot ∈ s.behind other ∨ other ∈ s.behind slot := by
  simp only [behind]
  induction hqueue : s.queue using List.reverseRecOn generalizing s with
  | nil =>
    rw [hqueue] at hslot
    cases hslot
  | append_singleton queue last ih =>
    rw [hqueue] at hslot hother
    by_cases hlast : last = slot
    · simp [hlast, hne]
    · by_cases hlast' : last = other
      · simp [hlast', Ne.symm hne]
      · have hrest := ih (s := { s with queue })
          (by simpa [Ne.symm hlast] using hslot) (by simpa [Ne.symm hlast'] using hother) rfl
        simp [hlast, hlast'] at hrest ⊢
        exact hrest.imp .inl .inl

theorem queue_forget (s : BagStore σ) (id : FeatureId) : (s.forget id).2.queue = s.queue := by
  rw [forget]
  split <;> rfl

private theorem queue_makeRoom_suffix (s : BagStore σ) (queue : List Slot) :
    (s.makeRoom queue).2.queue <:+ queue := by
  induction queue generalizing s with
  | nil => exact List.suffix_refl _
  | cons oldest queue ih =>
    rw [makeRoom]
    split
    · exact List.suffix_refl _
    · split
      · exact (ih _).trans (List.suffix_cons _ _)
      · exact (ih _).trans (List.suffix_cons _ _)

private theorem Consistent.makeRoom_of_full (queue : List Slot)
    (h : ({ s with queue } : BagStore σ).Consistent hash) (hcapacity : 0 < s.capacity)
    (hfull : s.capacity ≤ s.size) :
    ∃ slot, queue.find? (fun slot => s.bags.contains slot) = some slot ∧
      (s.makeRoom queue).1 = [slot.feature] := by
  induction queue generalizing s with
  | nil =>
    obtain ⟨entry, hentry⟩ := List.exists_mem_of_length_pos (Nat.lt_of_lt_of_le hcapacity hfull)
    have hget := Table.get?_of_mem h.functional hentry
    cases h.queued entry.1 (contains_iff.mpr ⟨entry.2, hget⟩)
  | cons oldest queue ih =>
    rw [makeRoom_cons_of_full (Nat.not_lt.mpr hfull) ⟨h.slots, h.owners⟩]
    by_cases hfilled : s.bags.contains oldest = true
    · refine ⟨oldest, by simp [hfilled], ?_⟩
      obtain ⟨stored, hget⟩ := contains_iff.mp hfilled
      have hroom : (s.forget oldest.feature).2.size < (s.forget oldest.feature).2.capacity := by
        have hkeeps : s.Keeps oldest.feature stored := ⟨oldest.hash, hget⟩
        have hdropped := h.size_forget_lt (.inl ⟨stored, hkeeps⟩)
        rw [forget_with_queue] at hdropped
        exact hdropped
      rw [if_pos hfilled, makeRoom_of_size_lt hroom]
    · obtain ⟨slot, hslot, hevicted⟩ := ih (h.pop hfilled) hcapacity hfull
      refine ⟨slot, by simpa [hfilled] using hslot, ?_⟩
      rw [if_neg hfilled, hevicted]

end Queues

section Ranks

variable {tree : Tree} {feature : Feature} {bag : Bag σ} {id : FeatureId} {slot other : Slot}

private theorem queue_vacated_suffix (s : BagStore σ) (id : FeatureId) :
    (s.vacated id).2.queue <:+ s.queue := by
  have hsuffix := queue_makeRoom_suffix (s.forget id).2 (s.forget id).2.queue
  rwa [← vacated, queue_forget] at hsuffix

private theorem exists_keeps (h : s.bags.contains slot = true) :
    ∃ stored, s.Keeps slot.feature stored := by
  obtain ⟨stored, hget⟩ := contains_iff.mp h
  exact ⟨stored, slot.hash, hget⟩

private theorem contains_of_vacated (h : s.Coherent)
    (hslot : (s.vacated id).2.bags.contains slot = true) :
    s.bags.contains slot = true ∧ slot.feature ≠ id := by
  obtain ⟨stored, hget⟩ := contains_iff.mp hslot
  have hbefore := bags_makeRoom hget
  rw [bags_forget h] at hbefore
  split at hbefore
  · cases hbefore
  · rename_i hne
    exact ⟨contains_iff.mpr ⟨stored, hbefore⟩, hne⟩

private theorem contains_insert (hcapacity : s.capacity ≠ 0)
    (h : (s.insert (hash tree) tree feature bag).2.bags.contains slot = true) :
    ⟨feature.id, hash tree⟩ = slot ∨ (s.vacated feature.id).2.bags.contains slot = true := by
  obtain ⟨stored, hget⟩ := contains_iff.mp h
  rw [bags_insert hcapacity, Table.get?_put] at hget
  split at hget
  · rename_i hnew
    exact .inl hnew
  · exact .inr (contains_iff.mpr ⟨stored, hget⟩)

private theorem behind_vacated (hs : s.Consistent hash) (hcapacity : 0 < s.capacity)
    (hslot : (s.vacated id).2.bags.contains slot = true) :
    (s.vacated id).2.behind slot = s.behind slot := by
  have hqueued := (hs.vacated hcapacity id).1.queued slot hslot
  exact (behind_of_suffix (queue_vacated_suffix s id) hqueued).symm

private theorem Ranked.insert (h : Ranked calls s) (hs : s.Consistent hash) (tree : Tree)
    (feature : Feature) (bag : Bag σ) (hcapacity : s.capacity ≠ 0) :
    Ranked (calls ++ [.insert tree feature bag]) (s.insert (hash tree) tree feature bag).2 := by
  intro slot other hslot hother
  have hpos := Nat.pos_of_ne_zero hcapacity
  have hslots := contains_insert hcapacity hslot
  have hothers := contains_insert hcapacity hother
  rw [insert_eq_vacated hcapacity] at hslot hother ⊢
  rw [bags_shortenQueue] at hslot hother
  rw [mem_behind_shortenQueue hslot hother, behind_concat rfl]
  simp only [age_concat, StoreCall.stores, decide_eq_true_eq]
  rcases hslots with rfl | hleft
  · simp
  obtain ⟨hfilled, hne⟩ := contains_of_vacated hs.toCoherent hleft
  have hnew : (⟨feature.id, hash tree⟩ : Slot) ≠ slot := fun heq => hne (heq ▸ rfl)
  rw [if_neg hnew, if_neg (Ne.symm hne)]
  rcases hothers with rfl | hleft'
  · simp
  obtain ⟨hfilled', hne'⟩ := contains_of_vacated hs.toCoherent hleft'
  have hnew' : other ≠ ⟨feature.id, hash tree⟩ := fun heq => hne' (heq ▸ rfl)
  have hbehind : other ∈ (s.vacated feature.id).2.behind slot ↔
      age calls other.feature < age calls slot.feature := by
    rw [behind_vacated hs hpos hleft]
    exact h slot other hfilled hfilled'
  rw [if_neg (Ne.symm hne'), List.mem_append, List.mem_singleton, or_iff_left hnew',
    Nat.add_lt_add_iff_right]
  exact hbehind

private theorem Ranked.perform (h : Ranked calls s) (hs : s.Consistent hash)
    (hcapacity : s.capacity ≠ 0)
    (call : StoreCall σ) : Ranked (calls ++ [call]) (s.perform hash call).2 := by
  cases call with
  | insert tree feature bag => exact h.insert hs tree feature bag hcapacity
  | forget id =>
    intro slot other hslot hother
    have hbefore : ∀ {slot : Slot}, (s.forget id).2.bags.contains slot = true →
        s.bags.contains slot = true := by
      intro slot hslot
      obtain ⟨stored, hget⟩ := contains_iff.mp hslot
      rw [bags_forget hs.toCoherent] at hget
      split at hget
      · cases hget
      · exact contains_iff.mpr ⟨stored, hget⟩
    have hranked := h slot other (hbefore hslot) (hbefore hother)
    simpa [age_concat, StoreCall.stores, behind, BagStore.perform, queue_forget] using hranked
  | clear =>
    intro slot other hslot
    cases hslot

/-- Whatever operations a store went through, its bags are listed in the order of their age. -/
theorem ranked_after (hash : Tree → UInt64) {capacity : Nat} (hcapacity : capacity ≠ 0)
    (calls : List (StoreCall σ)) :
    Ranked calls ((empty capacity : BagStore σ).after hash calls) := by
  induction calls using List.reverseRecOn with
  | nil =>
    intro slot other hslot
    cases hslot
  | append_singleton calls call ih =>
    rw [after_concat]
    apply ih.perform ((consistent_empty hash capacity).after calls)
    rw [capacity_after]
    exact hcapacity

theorem Ranked.eldest_iff (h : Ranked calls s) (hs : s.Consistent hash)
    (hslot : s.bags.contains slot = true) :
    s.Eldest calls slot.feature ↔
      ∀ other, s.bags.contains other = true → other ≠ slot → other ∈ s.behind slot := by
  constructor
  · intro heldest other hother hne
    obtain ⟨stored, hkeeps⟩ := exists_keeps hother
    have hle := heldest.first other.feature stored hkeeps
    rcases mem_behind_or (hs.queued other hother) (hs.queued slot hslot) hne with hbehind | hbehind
    · exact hbehind
    · have hlt := (h other slot hother hslot).mp hbehind
      omega
  · intro hbehind
    refine ⟨exists_keeps hslot, ?_⟩
    intro id stored hkeeps
    obtain ⟨hash', hget⟩ := hkeeps
    have hother : s.bags.contains ⟨id, hash'⟩ = true := contains_iff.mpr ⟨stored, hget⟩
    by_cases hne : (⟨id, hash'⟩ : Slot) = slot
    · rw [← hne]
    · have hlt := (h slot _ hslot hother).mp (hbehind _ hother hne)
      exact Nat.le_of_lt hlt

private theorem Keeps.mem_slots {stored : StoredBag σ} (h : s.Keeps id stored) :
    id ∈ (s.bags.map Prod.fst).map Slot.feature := by
  obtain ⟨hash', hget⟩ := h
  exact List.mem_map_of_mem (List.mem_map_of_mem (Table.mem_of_get? hget))

private theorem Coherent.vacated_of_not_keeps (h : s.Coherent)
    (hnew : ∀ stored, ¬ s.Keeps id stored) :
    s.vacated id = s.makeRoom s.queue := by
  have hnone : s.hashes.get? id = none := by
    cases hhash : s.hashes.get? id with
    | none => rfl
    | some hash' =>
      obtain ⟨stored, hkeeps⟩ := exists_keeps ((h.slots ⟨id, hash'⟩).mpr hhash)
      exact absurd hkeeps (hnew stored)
  have hforget : (s.forget id).2 = s := by
    rw [BagStore.forget, hnone]
  rw [vacated, hforget]

/-- For a feature without a bag a full store gives up the bag of the first slot that has one. -/
theorem Consistent.evicted_of_full (h : s.Consistent hash) (hcapacity : 0 < s.capacity)
    (hfull : s.capacity ≤ s.size) (tree : Tree) (bag : Bag σ)
    (hnew : ∀ stored, ¬ s.Keeps feature.id stored) :
    ∃ slot, s.front? = some slot ∧
      (s.insert (hash tree) tree feature bag).1 = [slot.feature] := by
  obtain ⟨slot, hfront, hevicted⟩ := Consistent.makeRoom_of_full s.queue h hcapacity hfull
  refine ⟨slot, hfront, ?_⟩
  rw [insert_eq_vacated (Nat.ne_of_gt hcapacity), h.toCoherent.vacated_of_not_keeps hnew]
  exact hevicted

end Ranks

/-- For a feature without a bag, a full store gives up one bag, that of the first slot in the queue
that has one, and keeps all others. It is the bag stored first exactly if all others are listed
behind the last listing of its slot. -/
theorem evicts_eldest_iff (hash : Tree → UInt64) {capacity : Nat} (hcapacity : 0 < capacity)
    (calls : List (StoreCall σ)) (tree : Tree) (feature : Feature) (bag : Bag σ)
    (hfull : capacity ≤ ((empty capacity : BagStore σ).after hash calls).size)
    (hnew : ∀ stored, ¬ ((empty capacity : BagStore σ).after hash calls).Keeps feature.id stored) :
    let s := (empty capacity : BagStore σ).after hash calls
    ∃ slot, s.front? = some slot ∧
      (s.insert (hash tree) tree feature bag).1 = [slot.feature] ∧
      (∀ other stored, other ≠ slot.feature → s.Keeps other stored →
        (s.insert (hash tree) tree feature bag).2.Keeps other stored) ∧
      (s.Eldest calls slot.feature ↔
        ∀ other, s.bags.contains other = true → other ≠ slot → other ∈ s.behind slot) := by
  intro s
  have hs : s.Consistent hash := (consistent_empty hash capacity).after calls
  have hsame : s.capacity = capacity := capacity_after (empty capacity) calls
  have hpos : 0 < s.capacity := by omega
  have hranked : Ranked calls s := ranked_after hash (by omega) calls
  obtain ⟨slot, hfront, hevicted⟩ := hs.evicted_of_full hpos (hsame.symm ▸ hfull) tree bag
    hnew
  refine ⟨slot, hfront, hevicted, ?_, hranked.eldest_iff hs (List.find?_some hfront)⟩
  intro other stored hother hkeeps
  have hne : other ≠ feature.id := by
    rintro rfl
    exact hnew stored hkeeps
  rw [keeps_insert_iff hs (by omega), hevicted]
  exact .inr ⟨hne, by simpa using hother, hkeeps⟩

def storing (name : String) : StoreCall Unit :=
  .insert .empty (.ofId ⟨name⟩) ⟨⟨name⟩, [], [], []⟩

/-- Of two bags, each stored once, the first one is evicted. -/
theorem evicts_eldest_iff_pair :
    let s := (empty 2 : BagStore Unit).after (fun _ => 0) [storing "a", storing "b"]
    (s.insert 0 .empty (.ofId ⟨"c"⟩) ⟨⟨"c"⟩, [], [], []⟩).1 = [⟨"a"⟩] ∧
      s.Eldest [storing "a", storing "b"] ⟨"a"⟩ := by
  intro s
  have hslots : s.bags.map Prod.fst = [⟨⟨"b"⟩, 0⟩, ⟨⟨"a"⟩, 0⟩] := by decide
  have hnew : ∀ stored, ¬ s.Keeps ⟨"c"⟩ stored := by
    intro stored hkeeps
    exact absurd (hslots ▸ hkeeps.mem_slots) (by decide)
  obtain ⟨slot, hfront, hevicted, -, heldest⟩ := evicts_eldest_iff (fun _ => 0) (by decide)
    [storing "a", storing "b"] .empty (.ofId ⟨"c"⟩) ⟨⟨"c"⟩, [], [], []⟩ (by decide) hnew
  have hslot : some (⟨⟨"a"⟩, 0⟩ : Slot) = some slot := hfront
  cases hslot
  refine ⟨hevicted, heldest.mpr ?_⟩
  intro other hother hne
  obtain ⟨stored, hget⟩ := contains_iff.mp hother
  have hmem : other ∈ s.bags.map Prod.fst := List.mem_map_of_mem (Table.mem_of_get? hget)
  have hother : other = ⟨⟨"b"⟩, 0⟩ := by simpa [hslots, hne] using hmem
  rw [hother]
  decide

/-- A bag is forgotten and stored again, in a slot that is still listed from the first time. -/
def refilled : List (StoreCall Unit) :=
  [storing "a", storing "b", .forget ⟨"a"⟩, storing "a"]

/-- It is then evicted before the bag that was stored in between. -/
theorem refilled_evicts_youngest :
    let s := (empty 2 : BagStore Unit).after (fun _ => 0) refilled
    s.size = 2 ∧ (∀ stored, ¬ s.Keeps ⟨"c"⟩ stored) ∧ s.Eldest refilled ⟨"b"⟩ ∧
      ¬ s.Eldest refilled ⟨"a"⟩ ∧
      (s.insert 0 .empty (.ofId ⟨"c"⟩) ⟨⟨"c"⟩, [], [], []⟩).1 = [⟨"a"⟩] := by
  intro s
  have hslots : s.bags.map Prod.fst = [⟨⟨"a"⟩, 0⟩, ⟨⟨"b"⟩, 0⟩] := by decide
  have hkept : s.Keeps ⟨"b"⟩ ⟨.empty, .ofId ⟨"b"⟩, ⟨⟨"b"⟩, [], [], []⟩⟩ := ⟨0, rfl⟩
  refine ⟨by decide, ?_, ⟨⟨_, hkept⟩, ?_⟩, ?_, by decide⟩
  · intro stored hkeeps
    exact absurd (hslots ▸ hkeeps.mem_slots) (by decide)
  · intro other stored hkeeps
    have hother := hkeeps.mem_slots
    rw [hslots] at hother
    simp only [List.map_cons, List.map_nil, List.mem_cons, List.not_mem_nil, or_false] at hother
    rcases hother with rfl | rfl <;> decide
  · intro heldest
    exact absurd (heldest.first ⟨"b"⟩ _ hkept) (by decide)

end BagStore
end FeatureStyle
