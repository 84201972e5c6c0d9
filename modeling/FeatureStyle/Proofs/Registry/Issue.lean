import Mathlib.Data.List.Perm.Subperm
import Mathlib.Data.Nat.Find
import FeatureStyle.Proofs.Registry.Operations
import FeatureStyle.Session.KeyStream

/-!
# The key that is issued

A supply is a stream of candidates. A binding gets the first of them that is the key of no binding, and
the supply goes on behind it. If the candidates differ, one of the first that are one more than there are
bindings is free. The main statement is `Registry.issues_first_free`.
-/

namespace FeatureStyle

def KeySupply.candidates {κ : Type} [KeySupply κ] (shape : KeyShape) (supply : κ) (n : Nat) :
    List Key :=
  (List.range n).map (candidate shape supply)

namespace Registry

variable {κ σ : Type} [KeySupply κ] {r r' : Registry κ σ} {n : Nat} {feature : FeatureId}
  {field : String} {sampler : σ} {binding : Binding σ} {passed : List Key}

/-- The candidate at a position is the key of no binding, and all in front of it are keys of bindings. -/
structure FirstFree (r : Registry κ σ) (n : Nat) : Prop where
  free : r.get? (KeySupply.candidate r.shape r.supply n) = none
  taken : ∀ m < n, ∃ old, r.get? (KeySupply.candidate r.shape r.supply m) = some old

/-- A field was bound under the candidate at a position, and nothing else has changed: the candidates in
front of it were passed over and counted, and what was bound is bound as before. -/
structure Issues (r : Registry κ σ) (n : Nat) (feature : FeatureId) (field : String) (sampler : σ)
    (binding : Binding σ) (r' : Registry κ σ) (passed : List Key) : Prop where
  made : binding = ⟨KeySupply.candidate r.shape r.supply n, feature, field, sampler⟩
  passed : passed = KeySupply.candidates r.shape r.supply n
  supply : r'.supply = KeySupply.drop r.shape (n + 1) r.supply
  collisions : r'.collisions = r.collisions + n
  get? : ∀ key, r'.get? key = if binding.key = key then some binding else r.get? key
  kept : ∀ key old, r.get? key = some old → r'.get? key = some old
  size : r'.size = r.size + 1
  keysOf : ∀ other, r'.keysOf other =
    if feature = other then r.keysOf feature ++ [binding.key] else r.keysOf other
  shape : r'.shape = r.shape
  patience : r'.patience = r.patience

theorem FirstFree.unique {m : Nat} (hm : r.FirstFree m) (hn : r.FirstFree n) : m = n := by
  have hle : ∀ {i j : Nat}, r.FirstFree i → r.FirstFree j → i ≤ j := by
    intro i j hi hj
    by_contra hlt
    obtain ⟨old, hold⟩ := hi.taken j (Nat.lt_of_not_le hlt)
    rw [hj.free] at hold
    cases hold
  exact Nat.le_antisymm (hle hm hn) (hle hn hm)

section Search

theorem firstFree?_of_taken (r : Registry κ σ) {attempts : Nat} {supply : κ} (hn : n < attempts)
    (hfree : r.contains (KeySupply.candidate r.shape supply n) = false)
    (htaken : ∀ m < n, r.contains (KeySupply.candidate r.shape supply m) = true) :
    r.firstFree? attempts supply =
      some ⟨KeySupply.candidate r.shape supply n, KeySupply.drop r.shape (n + 1) supply,
        KeySupply.candidates r.shape supply n⟩ := by
  obtain ⟨attempts, rfl⟩ := Nat.exists_eq_succ_of_ne_zero (Nat.ne_zero_of_lt hn)
  induction n generalizing attempts supply with
  | zero =>
    have hhead : r.contains (KeySupply.next r.shape supply).1 = false := hfree
    simp only [firstFree?, hhead, Bool.false_eq_true, ↓reduceIte]
    rfl
  | succ n ih =>
    have hn' : n < attempts := Nat.lt_of_succ_lt_succ hn
    obtain ⟨attempts, rfl⟩ := Nat.exists_eq_succ_of_ne_zero (Nat.ne_zero_of_lt hn')
    have hhead : r.contains (KeySupply.next r.shape supply).1 = true := htaken 0 (Nat.succ_pos n)
    have hrest := @ih (KeySupply.next r.shape supply).2 hfree
      (fun m hm => htaken (m + 1) (Nat.succ_lt_succ hm)) attempts hn'
    rw [firstFree?]
    simp only [hhead, ↓reduceIte, hrest, Option.map_some, KeySupply.candidates,
      List.range_succ_eq_map, List.map_cons, List.map_map]
    rfl

/-- What the search gives is the first free candidate, with the supply behind it and the candidates in
front of it. -/
theorem firstFree_of_firstFree? {attempts : Nat} {found : FreeKey κ}
    (h : r.firstFree? attempts r.supply = some found) :
    ∃ n < attempts, r.FirstFree n ∧ found = ⟨KeySupply.candidate r.shape r.supply n,
      KeySupply.drop r.shape (n + 1) r.supply, KeySupply.candidates r.shape r.supply n⟩ := by
  obtain ⟨n, hn, hkey, -, htaken⟩ := firstFree?_eq_some h
  have hfree : r.contains (KeySupply.candidate r.shape r.supply n) = false :=
    hkey ▸ firstFree?_not_contains h
  rw [firstFree?_of_taken r hn hfree htaken] at h
  refine ⟨n, hn, ⟨contains_eq_false_iff.mp hfree, ?_⟩, (Option.some.inj h).symm⟩
  intro m hm
  exact contains_iff.mp (htaken m hm)

theorem exists_firstFree (h : r.get? (KeySupply.candidate r.shape r.supply n) = none) :
    ∃ m ≤ n, r.FirstFree m := by
  classical
  have hex : ∃ m, r.get? (KeySupply.candidate r.shape r.supply m) = none := ⟨n, h⟩
  refine ⟨Nat.find hex, Nat.find_min' hex h, Nat.find_spec hex, ?_⟩
  intro m hm
  exact Option.ne_none_iff_exists'.mp (Nat.find_min hex hm)

/-- Not all of the candidates are keys of bindings if they differ and are more than the bindings. -/
theorem exists_free_of_distinct
    (hdistinct : (KeySupply.candidates r.shape r.supply (r.size + 1)).Nodup) :
    ∃ n ≤ r.size, r.get? (KeySupply.candidate r.shape r.supply n) = none := by
  by_contra hall
  push Not at hall
  have hsubset : KeySupply.candidates r.shape r.supply (r.size + 1) ⊆ r.bindings.map Prod.fst := by
    intro key hmem
    obtain ⟨n, hn, rfl⟩ := List.mem_map.mp hmem
    have hbound := hall n (Nat.le_of_lt_succ (List.mem_range.mp hn))
    exact not_imp_comm.mp Table.get?_eq_none_iff.mpr hbound
  have hlength := (List.subperm_of_subset hdistinct hsubset).length_le
  rw [KeySupply.candidates, List.length_map, List.length_range, List.length_map] at hlength
  exact Nat.not_succ_le_self _ hlength

end Search

theorem issues_of_bind? (h : r.bind? feature field sampler = some (binding, r', passed)) :
    ∃ n, r.FirstFree n ∧ r.Issues n feature field sampler binding r' passed := by
  obtain ⟨-, -, -, hunbound, -, hget⟩ := bind?_eq_some h
  obtain ⟨found, hfound, heq⟩ := Option.map_eq_some_iff.mp h
  obtain ⟨n, -, hfirst, rfl⟩ := firstFree_of_firstFree? hfound
  cases heq
  refine ⟨n, hfirst, ?_⟩
  constructor
  case collisions => simp [KeySupply.candidates]
  case get? => exact hget
  case kept =>
    intro key old hold
    have hne : KeySupply.candidate r.shape r.supply n ≠ key := by
      intro heq
      rw [← heq, hunbound] at hold
      cases hold
    rw [hget, if_neg hne, hold]
  case size =>
    rw [size, Table.put, Table.erase_of_get?_eq_none hunbound]
    rfl
  case keysOf =>
    intro other
    rw [keysOf, Table.get?_put]
    split <;> rfl
  all_goals rfl

private theorem bind?_isSome_iff : (r.bind? feature field sampler).isSome = true ↔
    ∃ n ≤ r.size + r.patience, r.FirstFree n := by
  constructor
  · intro h
    obtain ⟨⟨binding, r', passed⟩, hbind⟩ := Option.isSome_iff_exists.mp h
    obtain ⟨found, hfound, -⟩ := Option.map_eq_some_iff.mp hbind
    obtain ⟨n, hn, hfirst, -⟩ := firstFree_of_firstFree? hfound
    exact ⟨n, by omega, hfirst⟩
  · intro h
    obtain ⟨n, hn, hfirst⟩ := h
    rw [Option.isSome_iff_ne_none, Ne, bind?_eq_none_iff]
    intro hall
    obtain ⟨old, hold⟩ := contains_iff.mp (hall n (by omega))
    cases hfirst.free.symm.trans hold

/-- A binding that is made gets the first candidate that is the key of no binding, and the supply, the
count of collisions and the bindings change by that alone. A binding is made exactly if such a candidate
is within the patience of the registry, and if the first candidates that are one more than there are
bindings differ, it is made with one of these. -/
theorem issues_first_free (r : Registry κ σ) (feature : FeatureId) (field : String) (sampler : σ) :
    (∀ binding r' passed, r.bind? feature field sampler = some (binding, r', passed) →
      ∃ n, r.FirstFree n ∧ r.Issues n feature field sampler binding r' passed) ∧
    ((r.bind? feature field sampler).isSome = true ↔ ∃ n ≤ r.size + r.patience, r.FirstFree n) ∧
    ((KeySupply.candidates r.shape r.supply (r.size + 1)).Nodup →
      ∃ n ≤ r.size, r.FirstFree n ∧ ∃ binding r' passed,
        r.bind? feature field sampler = some (binding, r', passed) ∧
        r.Issues n feature field sampler binding r' passed) := by
  refine ⟨fun binding r' passed => issues_of_bind?, bind?_isSome_iff, ?_⟩
  intro hdistinct
  obtain ⟨m, hm, hfree⟩ := exists_free_of_distinct hdistinct
  obtain ⟨n, hn, hfirst⟩ := exists_firstFree hfree
  have hsome : (r.bind? feature field sampler).isSome = true :=
    bind?_isSome_iff.mpr ⟨n, by omega, hfirst⟩
  obtain ⟨⟨binding, r', passed⟩, hbind⟩ := Option.isSome_iff_exists.mp hsome
  obtain ⟨n', hfirst', hissues⟩ := issues_of_bind? hbind
  cases hfirst.unique hfirst'
  exact ⟨n, by omega, hfirst, binding, r', passed, hbind, hissues⟩

def oneBound (keys : List Key) (patience : Nat) : Registry KeyStream Unit where
  shape := KeyShape.standard
  supply := .listed keys 0
  patience := patience
  bindings := [(⟨"a"⟩, ⟨⟨"a"⟩, ⟨"bus"⟩, "speed", ()⟩)]
  index := [(⟨"bus"⟩, [⟨"a"⟩])]
  collisions := 0

/-- Of the candidates a, a and b the last one is issued. Of a and b, which differ, one is. -/
theorem issues_first_free_listed :
    (∃ n, (oneBound [⟨"a"⟩, ⟨"a"⟩, ⟨"b"⟩] 1).FirstFree n ∧
      ∃ r', (oneBound [⟨"a"⟩, ⟨"a"⟩, ⟨"b"⟩] 1).Issues n ⟨"tram"⟩ "load" ()
        ⟨⟨"b"⟩, ⟨"tram"⟩, "load", ()⟩ r' [⟨"a"⟩, ⟨"a"⟩] ∧ r'.collisions = 2) ∧
    ∃ n ≤ 1, (oneBound [⟨"a"⟩, ⟨"b"⟩] 0).FirstFree n := by
  constructor
  · obtain ⟨n, hfirst, hissues⟩ := (issues_first_free (oneBound [⟨"a"⟩, ⟨"a"⟩, ⟨"b"⟩] 1) ⟨"tram"⟩
      "load" ()).1 ⟨⟨"b"⟩, ⟨"tram"⟩, "load", ()⟩ _ [⟨"a"⟩, ⟨"a"⟩] rfl
    exact ⟨n, hfirst, _, hissues, rfl⟩
  · obtain ⟨n, hn, hfirst, -⟩ := (issues_first_free (oneBound [⟨"a"⟩, ⟨"b"⟩] 0) ⟨"tram"⟩
      "load" ()).2.2 (by decide)
    exact ⟨n, hn, hfirst⟩

end Registry
end FeatureStyle
