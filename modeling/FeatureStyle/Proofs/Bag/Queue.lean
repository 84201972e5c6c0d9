import Mathlib.Data.List.Dedup
import Mathlib.Data.List.Perm.Subperm
import FeatureStyle.Proofs.Bag.Eviction

/-!
# The length of the queue

Storing a bag drops the slots without one from a queue that became longer than twice the capacity, so
the queue never lists more different slots than that. A slot that has a bag may be listed many times
though, and these listings are kept: the queue stays within the bound exactly as long as they do. The
main statement is `queue_le_iff`.
-/

namespace FeatureStyle.BagStore

variable {σ : Type} {hash : Tree → UInt64} {s : BagStore σ}

/-- The listings of slots that have a bag. -/
def listed (s : BagStore σ) : List Slot := s.queue.filter fun slot => s.bags.contains slot

private theorem listed_length_le (s : BagStore σ) : s.listed.length ≤ s.queue.length :=
  List.length_filter_le ..

private theorem queue_shortenQueue (s : BagStore σ) :
    s.shortenQueue.queue.length ≤ 2 * s.capacity ∨
      s.shortenQueue.queue = s.shortenQueue.listed := by
  rw [shortenQueue]
  split
  · right
    simp [listed]
  · left
    omega

private theorem queue_insert (s : BagStore σ) (hash' : UInt64) (tree : Tree) (feature : Feature)
    (bag : Bag σ) (hcapacity : s.capacity ≠ 0) :
    (s.insert hash' tree feature bag).2.queue.length ≤ 2 * s.capacity ∨
      (s.insert hash' tree feature bag).2.queue = (s.insert hash' tree feature bag).2.listed := by
  rw [insert, if_neg hcapacity]
  have hshort := queue_shortenQueue
    { (s.vacated feature.id).2 with
      bags := (s.vacated feature.id).2.bags.put ⟨feature.id, hash'⟩ ⟨tree, feature, bag⟩
      hashes := (s.vacated feature.id).2.hashes.put feature.id hash'
      queue := (s.vacated feature.id).2.queue ++ [⟨feature.id, hash'⟩] }
  have hsame : (s.vacated feature.id).2.capacity = s.capacity := by
    rw [vacated, makeRoom_capacity, forget_capacity]
  rw [hsame] at hshort
  exact hshort

/-- After an operation the queue is no longer than it was, is within the bound, or lists only slots
that have a bag. -/
theorem queue_perform (hash : Tree → UInt64) (s : BagStore σ) (call : StoreCall σ) :
    (s.perform hash call).2.queue = s.queue ∨
      (s.perform hash call).2.queue.length ≤ 2 * s.capacity ∨
      (s.perform hash call).2.queue = (s.perform hash call).2.listed := by
  cases call with
  | insert tree feature bag =>
    by_cases hcapacity : s.capacity = 0
    · left
      simp [perform, insert, hcapacity]
    · right
      exact queue_insert s _ tree feature bag hcapacity
  | forget id => exact .inl (queue_forget s id)
  | clear => simp [perform, clear, empty]

theorem Consistent.dedup_listed_le (h : s.Consistent hash) :
    s.listed.dedup.length ≤ s.capacity := by
  have hsubset : s.listed.dedup ⊆ s.bags.map Prod.fst := by
    intro slot hslot
    rw [List.mem_dedup, listed, List.mem_filter, contains_iff] at hslot
    obtain ⟨-, stored, hget⟩ := hslot
    exact List.mem_map_of_mem (Table.mem_of_get? hget)
  have hle := (List.subperm_of_subset (List.nodup_dedup s.listed) hsubset).length_le
  rw [List.length_map] at hle
  exact Nat.le_trans hle h.size_le

private theorem Consistent.dedup_perform (h : s.Consistent hash)
    (hqueue : s.queue.dedup.length ≤ 2 * s.capacity) (call : StoreCall σ) :
    (s.perform hash call).2.queue.dedup.length ≤ 2 * s.capacity := by
  rcases queue_perform hash s call with hsame | hshort | hlisted
  · rwa [hsame]
  · exact Nat.le_trans (List.dedup_sublist _).length_le hshort
  · have hle := (h.perform call).dedup_listed_le
    rw [capacity_perform] at hle
    rw [hlisted]
    omega

section Histories

variable {capacity : Nat} {calls : List (StoreCall σ)}

/-- Whatever operations a store went through, its queue lists at most twice as many different slots
as bags can be many. -/
theorem dedup_queue_after (hash : Tree → UInt64) (capacity : Nat) (calls : List (StoreCall σ)) :
    ((empty capacity : BagStore σ).after hash calls).queue.dedup.length ≤ 2 * capacity := by
  induction calls using List.reverseRecOn with
  | nil => exact Nat.zero_le _
  | append_singleton calls call ih =>
    have hs := (consistent_empty (σ := σ) hash capacity).after calls
    have hsame : ((empty capacity : BagStore σ).after hash calls).capacity = capacity :=
      capacity_after (empty capacity) calls
    have hstep := hs.dedup_perform (by rw [hsame]; exact ih) call
    rw [hsame] at hstep
    rw [after_concat]
    exact hstep

theorem queue_after_le
    (h : ∀ before, before <+: calls →
      ((empty capacity : BagStore σ).after hash before).listed.length ≤ 2 * capacity) :
    ((empty capacity : BagStore σ).after hash calls).queue.length ≤ 2 * capacity := by
  induction calls using List.reverseRecOn with
  | nil => exact Nat.zero_le _
  | append_singleton calls call ih =>
    have hsame : ((empty capacity : BagStore σ).after hash calls).capacity = capacity :=
      capacity_after (empty capacity) calls
    have hbefore := ih fun before hinitial => h before (hinitial.trans (List.prefix_append _ _))
    have hlisted := h (calls ++ [call]) (List.prefix_refl _)
    rw [after_concat] at hlisted ⊢
    have hstep := queue_perform hash ((empty capacity : BagStore σ).after hash calls) call
    rw [hsame] at hstep
    rcases hstep with heq | hshort | heq
    · rwa [heq]
    · exact hshort
    · rwa [heq]

/-- Whatever operations a store goes through, its queue lists at most twice as many different slots as
bags can be many. It never gets longer than that exactly if the slots that have a bag are never listed
more often. -/
theorem queue_le_iff (hash : Tree → UInt64) (capacity : Nat) (calls : List (StoreCall σ)) :
    let after := (empty capacity : BagStore σ).after hash
    (after calls).queue.dedup.length ≤ 2 * capacity ∧
      ((∀ before, before <+: calls → (after before).queue.length ≤ 2 * capacity) ↔
        ∀ before, before <+: calls → (after before).listed.length ≤ 2 * capacity) := by
  refine ⟨dedup_queue_after hash capacity calls, ?_, ?_⟩
  · intro hqueue before hinitial
    exact Nat.le_trans (listed_length_le _) (hqueue before hinitial)
  · intro hlisted before hinitial
    exact queue_after_le fun first hfirst => hlisted first (hfirst.trans hinitial)

end Histories

section Refreshing

variable (hash : Tree → UInt64) {capacity : Nat} (tree : Tree) (feature : Feature) (bag : Bag σ)

/-- A store with one bag, whose slot is listed a number of times. -/
def single (capacity : Nat) (n : Nat) : BagStore σ where
  capacity
  bags := [(⟨feature.id, hash tree⟩, ⟨tree, feature, bag⟩)]
  hashes := [(feature.id, hash tree)]
  queue := List.replicate n ⟨feature.id, hash tree⟩

private theorem insert_single (hcapacity : 0 < capacity) (n : Nat) :
    ((single hash tree feature bag capacity n).insert (hash tree) tree feature bag).2 =
      single hash tree feature bag capacity (n + 1) := by
  have hroom : ((single hash tree feature bag capacity n).vacated feature.id).2 =
      ⟨capacity, [], [], List.replicate n ⟨feature.id, hash tree⟩⟩ := by
    have hforget : ((single hash tree feature bag capacity n).forget feature.id).2 =
        ⟨capacity, [], [], List.replicate n ⟨feature.id, hash tree⟩⟩ := by
      simp [single, forget, Table.get?, Table.erase]
    rw [vacated, hforget]
    rw [makeRoom_of_size_lt (by simpa [size] using hcapacity)]
  rw [insert_eq_vacated (by simpa [single] using Nat.ne_of_gt hcapacity), hroom,
    ← List.replicate_succ']
  rw [shortenQueue]
  split
  · simp [single, Table.put, Table.erase, Table.contains, Table.get?]
  · rfl

theorem queue_refreshed (hcapacity : 0 < capacity) (n : Nat) :
    ((empty capacity : BagStore σ).after hash
      (List.replicate n (.insert tree feature bag))).queue =
        List.replicate n ⟨feature.id, hash tree⟩ := by
  cases n with
  | zero => rfl
  | succ n =>
    have hsingle : (empty capacity : BagStore σ).after hash
        (List.replicate (n + 1) (.insert tree feature bag)) =
          single hash tree feature bag capacity (n + 1) := by
      induction n with
      | zero =>
        have hfirst : (empty capacity : BagStore σ).after hash [.insert tree feature bag] =
            shortenQueue (single hash tree feature bag capacity 1) := by
          simp [after, perform, BagStore.insert, empty, forget, makeRoom, single, Table.put,
            Table.erase, Table.get?, Nat.ne_of_gt hcapacity]
        have hstart : ¬ 2 * capacity < 1 := by omega
        exact hfirst.trans (if_neg hstart)
      | succ n ih =>
        rw [List.replicate_succ', after_concat, ih]
        exact insert_single hash tree feature bag hcapacity (n + 1)
    rw [hsingle, single]

end Refreshing

/-- The bag of a feature is stored again and again under one tree. -/
def refreshed : List (StoreCall Unit) :=
  [storing "a", storing "b", storing "a", storing "a", storing "a"]

/-- The queue of a store for two bags then lists five slots. -/
theorem refreshed_queue_too_long :
    ((empty 2 : BagStore Unit).after (fun _ => 0) refreshed).queue.length = 5 ∧ ¬ 5 ≤ 2 * 2 := by
  decide

end FeatureStyle.BagStore
