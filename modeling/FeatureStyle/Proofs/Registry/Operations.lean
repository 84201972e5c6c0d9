import FeatureStyle.Proofs.Entries
import FeatureStyle.Registry.Basic

/-!
# Operations of the registry

What every operation does to the bindings found by key, and that a registry stays sound: a binding is
found under its own key, and bound keys and keys to come have the shape of the registry.
-/

namespace FeatureStyle

/-- What others do to a registry. -/
inductive Act (σ : Type)
  | bind (feature : FeatureId) (field : String) (sampler : σ)
  | rebind (key : Key) (sampler : σ)
  | unbind (key : Key)
  | unbindAll (feature : FeatureId)

namespace KeySupply

variable {κ : Type} [KeySupply κ]

def drop (shape : KeyShape) : Nat → κ → κ
  | 0, supply => supply
  | n + 1, supply => drop shape n (next shape supply).2

def candidate (shape : KeyShape) (supply : κ) (n : Nat) : Key := (next shape (drop shape n supply)).1

/-- Every candidate of a supply has the given shape. -/
def Admissible (shape : KeyShape) (supply : κ) : Prop :=
  ∀ n, shape.admits (next shape (drop shape n supply)).1 = true

private theorem Admissible.head {shape : KeyShape} {supply : κ} (h : Admissible shape supply) :
    shape.admits (next shape supply).1 = true := h 0

private theorem Admissible.tail {shape : KeyShape} {supply : κ} (h : Admissible shape supply) :
    Admissible shape (next shape supply).2 := fun n => h (n + 1)

/-- The supply that gives one key again and again. -/
structure Same where
  key : Key

instance : KeySupply Same := ⟨fun _ supply => (supply.key, supply)⟩

theorem admissible_same {shape : KeyShape} {key : Key} (h : shape.admits key = true) :
    Admissible shape (Same.mk key) := by
  have hdrop : ∀ n, drop shape n (Same.mk key) = Same.mk key := by
    intro n
    induction n with
    | zero => rfl
    | succ n ih => exact ih
  intro n
  rw [hdrop]
  exact h

end KeySupply

namespace Registry

variable {κ σ : Type}

/-- A binding is found under its own key. -/
def Keyed (r : Registry κ σ) : Prop := ∀ key binding, r.get? key = some binding → binding.key = key

structure Sound [KeySupply κ] (r : Registry κ σ) : Prop where
  keyed : r.Keyed
  bound : ∀ key binding, r.get? key = some binding → r.shape.admits key = true
  supplied : KeySupply.Admissible r.shape r.supply

theorem contains_eq_isSome (r : Registry κ σ) (key : Key) :
    r.contains key = (r.get? key).isSome := rfl

theorem contains_iff {r : Registry κ σ} {key : Key} :
    r.contains key = true ↔ ∃ binding, r.get? key = some binding := by
  rw [contains_eq_isSome, Option.isSome_iff_exists]

theorem contains_eq_false_iff {r : Registry κ σ} {key : Key} :
    r.contains key = false ↔ r.get? key = none := by
  rw [contains_eq_isSome, Option.isSome_eq_false_iff, Option.isNone_iff_eq_none]

theorem sound_empty [KeySupply κ] {shape : KeyShape} {supply : κ} (patience : Nat)
    (h : KeySupply.Admissible shape supply) :
    (empty shape supply patience : Registry κ σ).Sound where
  keyed := by
    intro key binding hget
    cases hget
  bound := by
    intro key binding hget
    cases hget
  supplied := h

theorem Sound.of_subset [KeySupply κ] {r r' : Registry κ σ} (h : r.Sound) (hshape : r'.shape = r.shape)
    (hsupply : r'.supply = r.supply)
    (hget : ∀ key binding, r'.get? key = some binding →
      ∃ old, r.get? key = some old ∧ binding.key = old.key) : r'.Sound where
  keyed := by
    intro key binding hbinding
    obtain ⟨old, hold, hkey⟩ := hget key binding hbinding
    rw [hkey, h.keyed key old hold]
  bound := by
    intro key binding hbinding
    obtain ⟨old, hold, -⟩ := hget key binding hbinding
    rw [hshape]
    exact h.bound key old hold
  supplied := by
    rw [hshape, hsupply]
    exact h.supplied

section Binding

variable [KeySupply κ]

private theorem firstFree?_succ (r : Registry κ σ) (attempts : Nat) (supply : κ) :
    r.firstFree? (attempts + 1) supply =
      if r.contains (KeySupply.next r.shape supply).1 then
        (r.firstFree? attempts (KeySupply.next r.shape supply).2).map fun found =>
          { found with taken := (KeySupply.next r.shape supply).1 :: found.taken }
      else some ⟨(KeySupply.next r.shape supply).1, (KeySupply.next r.shape supply).2, []⟩ := rfl

theorem firstFree?_not_contains {r : Registry κ σ} {attempts : Nat} {supply : κ} {found : FreeKey κ}
    (h : r.firstFree? attempts supply = some found) : r.contains found.key = false := by
  induction attempts generalizing supply found with
  | zero => cases h
  | succ attempts ih =>
    rw [firstFree?_succ] at h
    split at h
    · obtain ⟨later, hlater, rfl⟩ := Option.map_eq_some_iff.mp h
      have hnew := ih hlater
      exact hnew
    · rename_i hfree
      cases h
      simpa using hfree

private theorem firstFree?_admissible {r : Registry κ σ} {attempts : Nat} {supply : κ}
    {found : FreeKey κ}
    (hsupply : KeySupply.Admissible r.shape supply)
    (h : r.firstFree? attempts supply = some found) :
    r.shape.admits found.key = true ∧ KeySupply.Admissible r.shape found.supply := by
  induction attempts generalizing supply found with
  | zero => cases h
  | succ attempts ih =>
    rw [firstFree?_succ] at h
    split at h
    · obtain ⟨later, hlater, rfl⟩ := Option.map_eq_some_iff.mp h
      have hnew := ih hsupply.tail hlater
      exact hnew
    · cases h
      exact ⟨hsupply.head, hsupply.tail⟩

/-- A free key is the first candidate that is the key of no binding. -/
theorem firstFree?_eq_some {r : Registry κ σ} {attempts : Nat} {supply : κ} {found : FreeKey κ}
    (h : r.firstFree? attempts supply = some found) :
    ∃ n < attempts, found.key = KeySupply.candidate r.shape supply n ∧
      found.supply = KeySupply.drop r.shape (n + 1) supply ∧
      ∀ m < n, r.contains (KeySupply.candidate r.shape supply m) = true := by
  induction attempts generalizing supply found with
  | zero => cases h
  | succ attempts ih =>
    rw [firstFree?_succ] at h
    split at h
    · rename_i hhead
      obtain ⟨later, hlater, rfl⟩ := Option.map_eq_some_iff.mp h
      obtain ⟨n, hn, hkey, hsupply, htaken⟩ := ih hlater
      refine ⟨n + 1, by omega, hkey, hsupply, ?_⟩
      intro m hm
      cases m with
      | zero => exact hhead
      | succ m => exact htaken m (by omega)
    · cases h
      exact ⟨0, Nat.succ_pos attempts, rfl, rfl, by simp⟩

theorem firstFree?_eq_none_iff {r : Registry κ σ} {attempts : Nat} {supply : κ} :
    r.firstFree? attempts supply = none ↔
      ∀ n < attempts, r.contains (KeySupply.candidate r.shape supply n) = true := by
  induction attempts generalizing supply with
  | zero => simp [firstFree?]
  | succ attempts ih =>
    rw [firstFree?_succ]
    split
    · rename_i hhead
      rw [Option.map_eq_none_iff, ih]
      constructor
      · intro htail n hn
        cases n with
        | zero => exact hhead
        | succ n => exact htail n (by omega)
      · intro hall n hn
        exact hall (n + 1) (by omega)
    · rename_i hhead
      simp only [reduceCtorEq, false_iff]
      intro hall
      exact hhead (hall 0 (Nat.succ_pos attempts))

variable {r r' : Registry κ σ} {feature : FeatureId} {field : String} {sampler : σ}
  {binding : Binding σ} {taken : List Key}

theorem bind?_eq_none_iff : r.bind? feature field sampler = none ↔
    ∀ n < r.size + 1 + r.patience,
      r.contains (KeySupply.candidate r.shape r.supply n) = true := by
  rw [bind?, Option.map_eq_none_iff, firstFree?_eq_none_iff]

/-- A new binding is made of what was asked for, under a key that was free. -/
theorem bind?_eq_some (h : r.bind? feature field sampler = some (binding, r', taken)) :
    binding.feature = feature ∧ binding.field = field ∧ binding.sampler = sampler ∧
      r.get? binding.key = none ∧ r'.shape = r.shape ∧
      ∀ key, r'.get? key = if binding.key = key then some binding else r.get? key := by
  obtain ⟨found, hfound, heq⟩ := Option.map_eq_some_iff.mp h
  have hfree := firstFree?_not_contains hfound
  cases heq
  refine ⟨rfl, rfl, rfl, contains_eq_false_iff.mp hfree, rfl, ?_⟩
  intro key
  exact Table.get?_put ..

theorem bind?_of_free (feature : FeatureId) (field : String) (sampler : σ)
    (h : r.get? (KeySupply.next r.shape r.supply).1 = none) :
    ∃ registry, r.bind? feature field sampler =
      some (⟨(KeySupply.next r.shape r.supply).1, feature, field, sampler⟩, registry, []) := by
  have hfree := contains_eq_false_iff.mpr h
  have hattempts : r.size + 1 + r.patience = r.size + r.patience + 1 := by omega
  rw [bind?, hattempts, firstFree?_succ, hfree]
  exact ⟨_, rfl⟩

theorem Sound.bind? (hr : r.Sound) (h : r.bind? feature field sampler = some (binding, r', taken)) :
    r'.Sound := by
  obtain ⟨-, -, -, -, hshape, hget⟩ := bind?_eq_some h
  obtain ⟨found, hfound, heq⟩ := Option.map_eq_some_iff.mp h
  obtain ⟨hadmits, hsupply⟩ := firstFree?_admissible hr.supplied hfound
  cases heq
  refine ⟨?_, ?_, hsupply⟩
  · intro key bound hbound
    rw [hget] at hbound
    split at hbound
    · rename_i hkey
      cases hbound
      exact hkey
    · exact hr.keyed key bound hbound
  · intro key bound hbound
    rw [hget] at hbound
    split at hbound
    · rename_i hkey
      exact hkey ▸ hadmits
    · exact hr.bound key bound hbound

end Binding

section Rebinding

theorem get?_rebind (r : Registry κ σ) (key : Key) (sampler : σ) (key' : Key) :
    (r.rebind key sampler).2.get? key' =
      if key = key' then (r.get? key').map fun binding => { binding with sampler }
      else r.get? key' := by
  rw [rebind]
  split
  · exact Table.get?_update r.bindings key key' fun binding => { binding with sampler }
  · rename_i hfree
    have hnone : r.get? key = none := contains_eq_false_iff.mp (by simpa using hfree)
    split
    · rename_i hkey
      simp [← hkey, hnone]
    · rfl

theorem rebind_self {r : Registry κ σ} (hr : Table.Functional r.bindings) {key : Key}
    {binding : Binding σ} (hget : r.get? key = some binding) :
    (r.rebind key binding.sampler).2 = r := by
  rw [rebind]
  split
  · rw [Table.update_eq_self hr hget rfl]
  · rfl

@[simp] theorem rebind_shape (r : Registry κ σ) (key : Key) (sampler : σ) :
    (r.rebind key sampler).2.shape = r.shape := by
  rw [rebind]
  split <;> rfl

@[simp] theorem rebind_supply (r : Registry κ σ) (key : Key) (sampler : σ) :
    (r.rebind key sampler).2.supply = r.supply := by
  rw [rebind]
  split <;> rfl

theorem Sound.rebind [KeySupply κ] {r : Registry κ σ} (h : r.Sound) (key : Key) (sampler : σ) :
    (r.rebind key sampler).2.Sound := by
  apply h.of_subset (rebind_shape ..) (rebind_supply ..)
  intro key' binding hbinding
  rw [get?_rebind] at hbinding
  split at hbinding
  · obtain ⟨old, hold, rfl⟩ := Option.map_eq_some_iff.mp hbinding
    exact ⟨old, hold, rfl⟩
  · exact ⟨binding, hbinding, rfl⟩

theorem refresh?_eq_none_iff {r : Registry κ σ} {key : Key} {sampler : σ} :
    r.refresh? key sampler = none ↔ r.get? key = none := by
  have hget := get?_rebind r key sampler key
  rw [if_pos rfl] at hget
  by_cases h : r.contains key = true
  · obtain ⟨old, hold⟩ := contains_iff.mp h
    rw [hold] at hget
    have hfst : (r.rebind key sampler).1 = true := by simp [Registry.rebind, h]
    simp [refresh?, hfst, hget, hold]
  · have hfst : (r.rebind key sampler).1 = false := by simp [Registry.rebind, h]
    simp [refresh?, hfst, contains_eq_false_iff.mp (by simpa using h)]

theorem refresh?_eq_some {r r' : Registry κ σ} {key : Key} {sampler : σ} {binding : Binding σ}
    (h : r.refresh? key sampler = some (binding, r')) :
    r' = (r.rebind key sampler).2 ∧
      ∃ old, r.get? key = some old ∧ binding = { old with sampler } := by
  have hget := get?_rebind r key sampler key
  rw [if_pos rfl] at hget
  simp only [refresh?] at h
  split at h
  · obtain ⟨found, hfound, heq⟩ := Option.map_eq_some_iff.mp h
    cases heq
    rw [hget] at hfound
    obtain ⟨old, hold, rfl⟩ := Option.map_eq_some_iff.mp hfound
    exact ⟨rfl, old, hold, rfl⟩
  · cases h

end Rebinding

section Removal

theorem get?_remove (r : Registry κ σ) (key key' : Key) :
    (r.remove key).2.get? key' = if key = key' then none else r.get? key' := by
  rw [remove]
  split
  · rename_i hnone
    split
    · rename_i hkey
      exact hkey ▸ hnone
    · rfl
  · exact Table.get?_erase ..

@[simp] theorem remove_shape (r : Registry κ σ) (key : Key) :
    (r.remove key).2.shape = r.shape := by
  rw [remove]
  split <;> rfl

@[simp] theorem remove_supply (r : Registry κ σ) (key : Key) :
    (r.remove key).2.supply = r.supply := by
  rw [remove]
  split <;> rfl

theorem unbind_of_admits {r : Registry κ σ} {key : Key} (h : r.shape.admits key = true) :
    r.unbind key = .ok (r.remove key) := by
  rw [unbind, if_pos h]

theorem eq_remove_of_unbind {r r' : Registry κ σ} {key : Key} {held : Bool}
    (h : r.unbind key = .ok (held, r')) : r' = (r.remove key).2 := by
  rw [unbind] at h
  split at h
  · have heq := Except.ok.inj h
    rw [heq]
  · cases h

theorem unbindEach_get? (r : Registry κ σ) (keys : List Key) (key : Key) :
    (r.unbindEach keys).2.get? key = r.get? key ∨
      key ∈ keys ∧ (r.unbindEach keys).2.get? key = none := by
  induction keys generalizing r with
  | nil => exact .inl rfl
  | cons first keys ih =>
    rw [unbindEach]
    split
    · rename_i held r' hunbind
      have hr' := eq_remove_of_unbind hunbind
      subst hr'
      rcases ih (r.remove first).2 with h | ⟨hmem, h⟩
      · rw [h, get?_remove]
        split
        · rename_i hkey
          exact .inr ⟨by simp [hkey], rfl⟩
        · exact .inl rfl
      · exact .inr ⟨List.mem_cons_of_mem _ hmem, h⟩
    · exact .inl rfl

theorem unbindEach_shape (r : Registry κ σ) (keys : List Key) :
    (r.unbindEach keys).2.shape = r.shape ∧ (r.unbindEach keys).2.supply = r.supply := by
  induction keys generalizing r with
  | nil => exact ⟨rfl, rfl⟩
  | cons first keys ih =>
    rw [unbindEach]
    split
    · rename_i held r' hunbind
      have hr' := eq_remove_of_unbind hunbind
      subst hr'
      obtain ⟨hshape, hsupply⟩ := ih (r.remove first).2
      exact ⟨by rw [hshape, remove_shape], by rw [hsupply, remove_supply]⟩
    · exact ⟨rfl, rfl⟩

theorem get?_unbindEach_of_mem {r : Registry κ σ} {keys : List Key} {key : Key}
    (h : (r.unbindEach keys).1 = .ok ()) (hmem : key ∈ keys) :
    (r.unbindEach keys).2.get? key = none := by
  induction keys generalizing r with
  | nil => cases hmem
  | cons first keys ih =>
    rw [unbindEach] at h ⊢
    split at h
    · rename_i held r' hunbind
      have hr' := eq_remove_of_unbind hunbind
      subst hr'
      rcases List.mem_cons.mp hmem with rfl | hmem
      · rcases unbindEach_get? (r.remove key).2 keys key with hkeep | ⟨-, hgone⟩
        · rw [hkeep, get?_remove, if_pos rfl]
        · exact hgone
      · exact ih h hmem
    · cases h

theorem get?_unbindEach_of_notMem {r : Registry κ σ} {keys : List Key} {key : Key}
    (h : key ∉ keys) : (r.unbindEach keys).2.get? key = r.get? key := by
  rcases unbindEach_get? r keys key with heq | ⟨hmem, -⟩
  · exact heq
  · exact absurd hmem h

theorem get?_unbindEach_of_ok {r : Registry κ σ} {keys : List Key} {key : Key}
    {binding : Binding σ} (h : (r.unbindEach keys).1 = .ok ()) :
    (r.unbindEach keys).2.get? key = some binding ↔ key ∉ keys ∧ r.get? key = some binding := by
  by_cases hmem : key ∈ keys
  · simp [get?_unbindEach_of_mem h hmem, hmem]
  · simp [get?_unbindEach_of_notMem hmem, hmem]

theorem unbindEach_of_admits {r : Registry κ σ} {keys : List Key}
    (h : ∀ key ∈ keys, r.shape.admits key = true) : (r.unbindEach keys).1 = .ok () := by
  induction keys generalizing r with
  | nil => rfl
  | cons first keys ih =>
    rw [unbindEach, unbind_of_admits (h first List.mem_cons_self)]
    apply ih (r := (r.remove first).2)
    intro key hmem
    rw [remove_shape]
    exact h key (List.mem_cons_of_mem _ hmem)

theorem Sound.unbindEach [KeySupply κ] {r : Registry κ σ} (h : r.Sound) (keys : List Key) :
    (r.unbindEach keys).2.Sound := by
  obtain ⟨hshape, hsupply⟩ := unbindEach_shape r keys
  apply h.of_subset hshape hsupply
  intro key binding hbinding
  rcases unbindEach_get? r keys key with hkeep | ⟨-, hgone⟩
  · exact ⟨binding, hkeep ▸ hbinding, rfl⟩
  · rw [hgone] at hbinding
    cases hbinding

theorem Sound.remove [KeySupply κ] {r : Registry κ σ} (h : r.Sound) (key : Key) :
    (r.remove key).2.Sound := by
  apply h.of_subset (remove_shape ..) (remove_supply ..)
  intro key' binding hbinding
  rw [get?_remove] at hbinding
  split at hbinding
  · cases hbinding
  · exact ⟨binding, hbinding, rfl⟩

theorem get?_unbindAll (r : Registry κ σ) (feature : FeatureId) (key : Key) :
    (r.unbindAll feature).2.get? key = if key ∈ r.keysOf feature then none else r.get? key := by
  have hfold : ∀ (keys : List Key) (bindings : Table Key (Binding σ)),
      (keys.foldl (fun bindings key => bindings.erase key) bindings).get? key =
        if key ∈ keys then none else bindings.get? key := by
    intro keys
    induction keys with
    | nil => simp
    | cons first keys ih =>
      intro bindings
      rw [List.foldl_cons, ih, Table.get?_erase]
      by_cases hfirst : first = key
      · simp [hfirst]
      · simp [hfirst, Ne.symm hfirst]
  exact hfold (r.keysOf feature) r.bindings

theorem Sound.unbindAll [KeySupply κ] {r : Registry κ σ} (h : r.Sound) (feature : FeatureId) :
    (r.unbindAll feature).2.Sound := by
  have hsubset : ∀ key binding, (r.unbindAll feature).2.get? key = some binding →
      ∃ old, r.get? key = some old ∧ binding.key = old.key := by
    intro key binding hbinding
    rw [get?_unbindAll] at hbinding
    split at hbinding
    · cases hbinding
    · exact ⟨binding, hbinding, rfl⟩
  exact h.of_subset rfl rfl hsubset

end Removal

end Registry
end FeatureStyle
