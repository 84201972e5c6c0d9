import FeatureStyle.Proofs.Registry.Operations

/-!
# The registry as a list of bindings

A roll is a plain list of bindings in the order in which they were made. Binding puts a binding
under a key of no other binding at its end, rebinding changes one sampler, unbinding strikes
bindings out. The main statement is `agrees_of_acts`: after any acts a registry has answered, and
answers every question, as such a list does.
-/

namespace FeatureStyle

inductive Answer (σ : Type)
  | bound (binding : Binding σ)
  | noKey
  | flag (b : Bool)
  | count (n : Nat)
  | foreignKey

/-- The bindings an act is about. -/
def Act.Concerns {σ : Type} : Act σ → Binding σ → Prop
  | bind .., _ => False
  | rebind key _, binding => binding.key = key
  | unbind key, binding => binding.key = key
  | unbindAll feature, binding => binding.feature = feature

/-- Bindings in the order in which they were made. -/
abbrev Roll (σ : Type) := List (Binding σ)

namespace Roll

variable {κ σ : Type}

def get? (l : Roll σ) (key : Key) : Option (Binding σ) := l.find? fun binding => binding.key = key

def contains (l : Roll σ) (key : Key) : Bool := l.any fun binding => binding.key = key

def ofFeature (l : Roll σ) (feature : FeatureId) : Roll σ :=
  l.filter fun binding => binding.feature = feature

def keysOf (l : Roll σ) (feature : FeatureId) : List Key := (ofFeature l feature).map Binding.key

def rebind (l : Roll σ) (key : Key) (sampler : σ) : Roll σ :=
  l.map fun binding => if binding.key = key then { binding with sampler } else binding

def unbind (l : Roll σ) (key : Key) : Roll σ := l.filter fun binding => binding.key ≠ key

def unbindAll (l : Roll σ) (feature : FeatureId) : Roll σ :=
  l.filter fun binding => binding.feature ≠ feature

/-- How an act is answered, and what it does to a supply and a roll. The key of a new binding is the
first candidate of the supply that is the key of no binding. -/
inductive Step [KeySupply κ] (shape : KeyShape) (patience : Nat) :
    κ → Roll σ → Act σ → Answer σ → κ → Roll σ → Prop
  | bind {supply : κ} {l : Roll σ} {n : Nat} (hn : n < l.length + 1 + patience)
      (htaken : ∀ m < n, contains l (KeySupply.candidate shape supply m) = true)
      (hnew : contains l (KeySupply.candidate shape supply n) = false)
      (feature : FeatureId) (field : String) (sampler : σ) :
      Step shape patience supply l (.bind feature field sampler)
        (.bound ⟨KeySupply.candidate shape supply n, feature, field, sampler⟩)
        (KeySupply.drop shape (n + 1) supply)
        (l ++ [⟨KeySupply.candidate shape supply n, feature, field, sampler⟩])
  | noKey {supply : κ} {l : Roll σ}
      (htaken : ∀ m < l.length + 1 + patience,
        contains l (KeySupply.candidate shape supply m) = true)
      (feature : FeatureId) (field : String) (sampler : σ) :
      Step shape patience supply l (.bind feature field sampler) .noKey supply l
  | rebind (supply : κ) (l : Roll σ) (key : Key) (sampler : σ) :
      Step shape patience supply l (.rebind key sampler) (.flag (contains l key)) supply
        (rebind l key sampler)
  | unbind (supply : κ) (l : Roll σ) {key : Key} (hshape : shape.admits key = true) :
      Step shape patience supply l (.unbind key) (.flag (contains l key)) supply (unbind l key)
  | foreignKey (supply : κ) (l : Roll σ) {key : Key} (hshape : shape.admits key = false) :
      Step shape patience supply l (.unbind key) .foreignKey supply l
  | unbindAll (supply : κ) (l : Roll σ) (feature : FeatureId) :
      Step shape patience supply l (.unbindAll feature) (.count (ofFeature l feature).length) supply
        (unbindAll l feature)

/-- How acts are answered, one after the other. -/
inductive Run [KeySupply κ] (shape : KeyShape) (patience : Nat) :
    κ → Roll σ → List (Act σ) → List (Answer σ) → κ → Roll σ → Prop
  | nil (supply : κ) (l : Roll σ) : Run shape patience supply l [] [] supply l
  | cons {supply supply' supply'' : κ} {l l' l'' : Roll σ} {act : Act σ} {acts : List (Act σ)}
      {answer : Answer σ} {answers : List (Answer σ)}
      (hstep : Step shape patience supply l act answer supply' l')
      (hrun : Run shape patience supply' l' acts answers supply'' l'') :
      Run shape patience supply l (act :: acts) (answer :: answers) supply'' l''

def Distinct (l : Roll σ) : Prop := (l.map Binding.key).Nodup

variable {l : Roll σ} {key : Key} {binding : Binding σ} {feature : FeatureId}

section Lookup

private theorem contains_eq_isSome (l : Roll σ) (key : Key) :
    contains l key = (get? l key).isSome := by
  rw [contains, get?, List.isSome_find?]

private theorem contains_eq_false_iff : contains l key = false ↔ get? l key = none := by
  rw [contains_eq_isSome, Option.isSome_eq_false_iff, Option.isNone_iff_eq_none]

private theorem get?_eq_none_iff : get? l key = none ↔ key ∉ l.map Binding.key := by
  simp [get?]

private theorem mem_of_get? (h : get? l key = some binding) : binding ∈ l ∧ binding.key = key :=
  ⟨List.mem_of_find?_eq_some h, by simpa using List.find?_some h⟩

private theorem get?_of_mem (hl : Distinct l) (h : binding ∈ l) :
    get? l binding.key = some binding := by
  induction l with
  | nil => cases h
  | cons head rest ih =>
    obtain ⟨hnew, hrest⟩ := List.nodup_cons.mp hl
    rcases List.mem_cons.mp h with rfl | hmem
    · simp [get?]
    · have hne : head.key ≠ binding.key := fun heq => hnew (heq ▸ List.mem_map_of_mem hmem)
      have hfound := ih hrest hmem
      rw [get?] at hfound ⊢
      rw [List.find?_cons_of_neg (by simpa using hne)]
      exact hfound

private theorem eq_of_key_eq (hl : Distinct l) {a b : Binding σ} (ha : a ∈ l) (hb : b ∈ l)
    (hkey : a.key = b.key) : a = b := by
  have hget := get?_of_mem hl ha
  rw [hkey, get?_of_mem hl hb] at hget
  exact (Option.some.inj hget).symm

theorem mem_keysOf_iff (hl : Distinct l) (h : get? l key = some binding) (feature : FeatureId) :
    key ∈ keysOf l feature ↔ binding.feature = feature := by
  obtain ⟨hmem, rfl⟩ := mem_of_get? h
  constructor
  · intro hkey
    obtain ⟨other, hother, hsame⟩ := List.mem_map.mp hkey
    obtain ⟨hmem', hfeature⟩ := List.mem_filter.mp hother
    rw [← eq_of_key_eq hl hmem' hmem hsame]
    exact of_decide_eq_true hfeature
  · intro hfeature
    exact List.mem_map_of_mem (List.mem_filter.mpr ⟨hmem, decide_eq_true hfeature⟩)

private theorem exists_get?_of_mem_keysOf (hl : Distinct l) (h : key ∈ keysOf l feature) :
    ∃ binding, get? l key = some binding ∧ binding.feature = feature := by
  obtain ⟨binding, hmem, rfl⟩ := List.mem_map.mp h
  obtain ⟨hmem, hfeature⟩ := List.mem_filter.mp hmem
  exact ⟨binding, get?_of_mem hl hmem, of_decide_eq_true hfeature⟩

private theorem keysOf_nodup (hl : Distinct l) (feature : FeatureId) : (keysOf l feature).Nodup :=
  hl.sublist (List.filter_sublist.map Binding.key)

end Lookup

section Steps

private theorem get?_append (hnew : contains l binding.key = false) (key : Key) :
    get? (l ++ [binding]) key = if binding.key = key then some binding else get? l key := by
  rw [get?, List.find?_append]
  by_cases hkey : binding.key = key
  · have hnone := contains_eq_false_iff.mp hnew
    rw [hkey, get?] at hnone
    simp [hkey, hnone]
  · simp [hkey, get?]

private theorem keysOf_append (l : Roll σ) (binding : Binding σ) (feature : FeatureId) :
    keysOf (l ++ [binding]) feature =
      if binding.feature = feature then keysOf l feature ++ [binding.key]
      else keysOf l feature := by
  rw [keysOf, ofFeature, List.filter_append, List.map_append]
  split <;> simp [keysOf, ofFeature, *]

private theorem Distinct.append (hl : Distinct l) (hnew : contains l binding.key = false) :
    Distinct (l ++ [binding]) := by
  have hfree := get?_eq_none_iff.mp (contains_eq_false_iff.mp hnew)
  rw [Distinct, List.map_append, List.map_singleton, List.nodup_append]
  refine ⟨hl, by simp, ?_⟩
  intro key hkey key' hkey' heq
  have hsame : key = binding.key := heq.trans (List.mem_singleton.mp hkey')
  exact hfree (hsame ▸ hkey)

private theorem key_rebind (binding : Binding σ) (key : Key) (sampler : σ) :
    (if binding.key = key then { binding with sampler } else binding).key = binding.key := by
  split <;> rfl

private theorem feature_rebind (binding : Binding σ) (key : Key) (sampler : σ) :
    (if binding.key = key then { binding with sampler } else binding).feature =
      binding.feature := by
  split <;> rfl

private theorem get?_rebind (l : Roll σ) (key : Key) (sampler : σ) (key' : Key) :
    get? (rebind l key sampler) key' =
      if key = key' then (get? l key').map fun binding => { binding with sampler }
      else get? l key' := by
  induction l with
  | nil => simp [rebind, get?]
  | cons head rest ih =>
    simp only [rebind, get?, List.map_cons, List.find?_cons, key_rebind] at ih ⊢
    by_cases hhead : head.key = key'
    · simp only [hhead, decide_true]
      by_cases hkey : key = key'
      · simp [hkey, hhead]
      · simp [hkey, Ne.symm hkey]
    · simpa only [hhead, decide_false] using ih

private theorem keysOf_rebind (l : Roll σ) (key : Key) (sampler : σ) (feature : FeatureId) :
    keysOf (rebind l key sampler) feature = keysOf l feature := by
  simp only [keysOf, ofFeature, rebind, List.filter_map, List.map_map, Function.comp_def,
    key_rebind, feature_rebind]

private theorem Distinct.rebind (hl : Distinct l) (key : Key) (sampler : σ) :
    Distinct (rebind l key sampler) := by
  simpa only [Distinct, Roll.rebind, List.map_map, Function.comp_def, key_rebind] using hl

private theorem get?_unbind (l : Roll σ) (key key' : Key) :
    get? (unbind l key) key' = if key = key' then none else get? l key' := by
  rw [unbind, get?, List.find?_filter]
  split
  · rename_i hkey
    simp [hkey]
  · rename_i hkey
    rw [get?]
    congr
    funext binding
    by_cases hbinding : binding.key = key'
    · simp [hbinding, Ne.symm hkey]
    · simp [hbinding]

private theorem keysOf_unbind (l : Roll σ) (key : Key) (feature : FeatureId) :
    keysOf (unbind l key) feature = (keysOf l feature).filter (· ≠ key) := by
  simp only [keysOf, ofFeature, unbind, List.filter_map, List.filter_filter, Function.comp_def]
  congr 2
  funext binding
  exact Bool.and_comm _ _

private theorem keysOf_unbind_of_not_mem (h : key ∉ keysOf l feature) :
    keysOf (unbind l key) feature = keysOf l feature := by
  rw [keysOf_unbind]
  apply List.filter_eq_self.mpr
  intro other hother
  exact decide_eq_true fun heq => h (heq ▸ hother)

private theorem Distinct.filter (hl : Distinct l) (keep : Binding σ → Bool) :
    Distinct (l.filter keep) :=
  hl.sublist (List.filter_sublist.map Binding.key)

private theorem get?_unbindAll (hl : Distinct l) (feature : FeatureId) (key : Key) :
    get? (unbindAll l feature) key = if key ∈ keysOf l feature then none else get? l key := by
  cases hget : get? l key with
  | none =>
    have hgone : get? (unbindAll l feature) key = none := by
      have hsub : ((unbindAll l feature).map Binding.key).Sublist (l.map Binding.key) :=
        List.filter_sublist.map Binding.key
      exact get?_eq_none_iff.mpr fun hmem => get?_eq_none_iff.mp hget (hsub.subset hmem)
    rw [hgone, ite_self]
  | some binding =>
    obtain ⟨hmem, hkey⟩ := mem_of_get? hget
    have hkeys := mem_keysOf_iff hl hget feature
    by_cases hfeature : binding.feature = feature
    · rw [if_pos (hkeys.mpr hfeature)]
      apply get?_eq_none_iff.mpr
      intro hmem'
      obtain ⟨other, hother, hsame⟩ := List.mem_map.mp hmem'
      obtain ⟨hother, hne⟩ := List.mem_filter.mp hother
      have heq := eq_of_key_eq hl hother hmem (hsame.trans hkey.symm)
      exact of_decide_eq_true hne (heq ▸ hfeature)
    · rw [if_neg (fun hmem => hfeature (hkeys.mp hmem))]
      have hkept : binding ∈ unbindAll l feature :=
        List.mem_filter.mpr ⟨hmem, decide_eq_true hfeature⟩
      exact hkey ▸ get?_of_mem (hl.filter _) hkept

private theorem keysOf_unbindAll (l : Roll σ) (feature feature' : FeatureId) :
    keysOf (unbindAll l feature) feature' =
      if feature = feature' then [] else keysOf l feature' := by
  simp only [keysOf, ofFeature, unbindAll, List.filter_filter]
  split
  · rename_i hfeature
    simp [hfeature]
  · rename_i hfeature
    congr 2
    funext binding
    by_cases hbinding : binding.feature = feature'
    · simp [hbinding, Ne.symm hfeature]
    · simp [hbinding]

end Steps

variable [KeySupply κ] {shape : KeyShape} {patience : Nat} {supply supply' : κ} {l' : Roll σ}
  {act : Act σ} {answer : Answer σ}

theorem Step.mem_of_not_concerns (h : Step shape patience supply l act answer supply' l')
    (hmem : binding ∈ l) (hother : ¬ act.Concerns binding) : binding ∈ l' := by
  cases h with
  | bind => exact List.mem_append_left _ hmem
  | noKey => exact hmem
  | rebind key sampler => exact List.mem_map.mpr ⟨binding, hmem, if_neg hother⟩
  | unbind => exact List.mem_filter.mpr ⟨hmem, decide_eq_true hother⟩
  | foreignKey => exact hmem
  | unbindAll => exact List.mem_filter.mpr ⟨hmem, decide_eq_true hother⟩

end Roll

namespace Registry

variable {κ σ : Type}

/-- A registry answers every question as a roll does. -/
structure Agrees (r : Registry κ σ) (l : Roll σ) : Prop where
  get?_eq : ∀ key, r.get? key = Roll.get? l key
  contains_eq : ∀ key, r.contains key = Roll.contains l key
  sample?_eq : ∀ read key,
    r.sample? read key = (Roll.get? l key).map fun binding => read binding.sampler
  size_eq : r.size = l.length
  isEmpty_eq : r.bindings.isEmpty = l.isEmpty
  keysOf_eq : ∀ feature, r.keysOf feature = Roll.keysOf l feature
  keysOf_nodup : ∀ feature, (r.keysOf feature).Nodup

/-- The table and the index of a registry hold a roll. -/
structure Holds (r : Registry κ σ) (l : Roll σ) : Prop where
  functional : Table.Functional r.bindings
  distinct : Roll.Distinct l
  get?_eq : ∀ key, r.get? key = Roll.get? l key
  index_eq : ∀ feature, r.index.get? feature =
    if Roll.keysOf l feature = [] then none else some (Roll.keysOf l feature)

variable {r : Registry κ σ} {l : Roll σ}

namespace Holds

private theorem contains_eq (h : r.Holds l) (key : Key) : r.contains key = Roll.contains l key := by
  rw [contains_eq_isSome, h.get?_eq, Roll.contains_eq_isSome]

private theorem keysOf_eq (h : r.Holds l) (feature : FeatureId) :
    r.keysOf feature = Roll.keysOf l feature := by
  rw [keysOf, h.index_eq]
  split
  · rename_i hnone
    exact hnone.symm
  · rfl

theorem perm_keys (h : r.Holds l) : (r.bindings.map Prod.fst).Perm (l.map Binding.key) := by
  rw [List.perm_ext_iff_of_nodup h.functional h.distinct]
  intro key
  have hnone : r.get? key = none ↔ Roll.get? l key = none := by rw [h.get?_eq]
  rw [Registry.get?, Table.get?_eq_none_iff, Roll.get?_eq_none_iff] at hnone
  exact Decidable.not_iff_not.mp hnone

private theorem size_eq (h : r.Holds l) : r.size = l.length := by
  have hlength := h.perm_keys.length_eq
  rwa [List.length_map, List.length_map] at hlength

theorem agrees (h : r.Holds l) : r.Agrees l where
  get?_eq := h.get?_eq
  contains_eq := h.contains_eq
  sample?_eq read key := by rw [sample?, h.get?_eq]
  size_eq := h.size_eq
  isEmpty_eq := by
    have hsize : r.bindings.length = l.length := h.size_eq
    rw [Bool.eq_iff_iff, List.isEmpty_iff, List.isEmpty_iff, ← List.length_eq_zero_iff, hsize,
      List.length_eq_zero_iff]
  keysOf_eq := h.keysOf_eq
  keysOf_nodup feature := h.keysOf_eq feature ▸ Roll.keysOf_nodup h.distinct feature

end Holds

private theorem holds_empty (shape : KeyShape) (supply : κ) (patience : Nat) :
    (empty shape supply patience : Registry κ σ).Holds [] where
  functional := List.nodup_nil
  distinct := List.nodup_nil
  get?_eq _ := rfl
  index_eq _ := rfl

/-- A registry with a new binding holds the roll with the binding at its end. -/
theorem Holds.append (h : r.Holds l) (binding : Binding σ)
    (hnew : Roll.contains l binding.key = false) (supply : κ) (collisions : Nat) :
    Holds { r with
      supply
      bindings := r.bindings.put binding.key binding
      index := r.index.put binding.feature (r.keysOf binding.feature ++ [binding.key])
      collisions } (l ++ [binding]) where
  functional := Table.functional_put h.functional ..
  distinct := h.distinct.append hnew
  get?_eq key := by
    rw [Roll.get?_append hnew, ← h.get?_eq]
    exact Table.get?_put ..
  index_eq feature := by
    rw [Roll.keysOf_append, Table.get?_put, h.keysOf_eq]
    split
    · rename_i hfeature
      simp [hfeature]
    · exact h.index_eq feature

private theorem Holds.rebind (h : r.Holds l) (key : Key) (sampler : σ) :
    (r.rebind key sampler).2.Holds (Roll.rebind l key sampler) where
  functional := by
    rw [Registry.rebind]
    split
    · exact Table.functional_update h.functional key fun binding => { binding with sampler }
    · exact h.functional
  distinct := h.distinct.rebind key sampler
  get?_eq key' := by rw [Registry.get?_rebind, Roll.get?_rebind, h.get?_eq]
  index_eq feature := by
    have hindex : (r.rebind key sampler).2.index = r.index := by
      rw [Registry.rebind]
      split <;> rfl
    rw [hindex, Roll.keysOf_rebind, h.index_eq]

private theorem Holds.remove (h : r.Holds l) (key : Key) :
    (r.remove key).2.Holds (Roll.unbind l key) where
  functional := by
    rw [Registry.remove]
    split
    · exact h.functional
    · exact Table.functional_erase h.functional key
  distinct := h.distinct.filter _
  get?_eq key' := by rw [get?_remove, Roll.get?_unbind, h.get?_eq]
  index_eq feature := by
    rw [Registry.remove]
    split
    · rename_i hnone
      have hfree : key ∉ Roll.keysOf l feature := by
        intro hmem
        obtain ⟨binding, hget, -⟩ := Roll.exists_get?_of_mem_keysOf h.distinct hmem
        rw [← h.get?_eq, hnone] at hget
        cases hget
      rw [Roll.keysOf_unbind_of_not_mem hfree]
      exact h.index_eq feature
    · rename_i binding hbinding
      rw [h.get?_eq] at hbinding
      have hindex : ∀ keys, (if keys.isEmpty then r.index.erase binding.feature
          else r.index.put binding.feature keys).get? feature =
            if binding.feature = feature then if keys = [] then none else some keys
            else r.index.get? feature := by
        intro keys
        cases keys with
        | nil => simp [Table.get?_erase]
        | cons first keys => simp [Table.get?_put]
      rw [hindex, h.keysOf_eq]
      by_cases hfeature : binding.feature = feature
      · rw [if_pos hfeature, hfeature, Roll.keysOf_unbind]
      · have hfree := mt (Roll.mem_keysOf_iff h.distinct hbinding feature).mp hfeature
        rw [if_neg hfeature, Roll.keysOf_unbind_of_not_mem hfree, h.index_eq]

private theorem Holds.unbindAll (h : r.Holds l) (feature : FeatureId) :
    (r.unbindAll feature).2.Holds (Roll.unbindAll l feature) where
  functional := by
    have hfold : ∀ (keys : List Key) (bindings : Table Key (Binding σ)), bindings.Functional →
        (keys.foldl (fun bindings key => bindings.erase key) bindings).Functional := by
      intro keys
      induction keys with
      | nil => exact fun _ hbindings => hbindings
      | cons key keys ih => exact fun _ hbindings => ih _ (Table.functional_erase hbindings key)
    exact hfold _ _ h.functional
  distinct := h.distinct.filter _
  get?_eq key := by
    rw [get?_unbindAll, Roll.get?_unbindAll h.distinct, h.keysOf_eq, h.get?_eq]
  index_eq feature' := by
    rw [Roll.keysOf_unbindAll]
    refine (Table.get?_erase r.index feature feature').trans ?_
    split
    · rfl
    · exact h.index_eq feature'

section Acts

variable [KeySupply κ]

def respond (r : Registry κ σ) : Act σ → Answer σ × Registry κ σ
  | .bind feature field sampler =>
    match r.bind? feature field sampler with
    | some (binding, r, _) => (.bound binding, r)
    | none => (.noKey, r)
  | .rebind key sampler =>
    let (held, r) := r.rebind key sampler
    (.flag held, r)
  | .unbind key =>
    match r.unbind key with
    | .ok (held, r) => (.flag held, r)
    | .error _ => (.foreignKey, r)
  | .unbindAll feature =>
    let (n, r) := r.unbindAll feature
    (.count n, r)

def respondEach (r : Registry κ σ) : List (Act σ) → List (Answer σ) × Registry κ σ
  | [] => ([], r)
  | act :: acts =>
    let (answer, r) := r.respond act
    let (answers, r) := r.respondEach acts
    (answer :: answers, r)

private theorem Holds.bind (h : r.Holds l) (feature : FeatureId) (field : String) (sampler : σ) :
    ∃ l', Roll.Step r.shape r.patience r.supply l (.bind feature field sampler)
        (r.respond (.bind feature field sampler)).1
        (r.respond (.bind feature field sampler)).2.supply l' ∧
      (r.respond (.bind feature field sampler)).2.Holds l' := by
  cases hbind : r.bind? feature field sampler with
  | none =>
    rw [respond, hbind]
    refine ⟨l, .noKey ?_ feature field sampler, h⟩
    intro n hn
    rw [← h.contains_eq]
    exact bind?_eq_none_iff.mp hbind n (h.size_eq ▸ hn)
  | some result =>
    obtain ⟨binding, r', taken⟩ := result
    rw [respond, hbind]
    have hfree := (bind?_eq_some hbind).2.2.2.1
    obtain ⟨found, hfound, heq⟩ := Option.map_eq_some_iff.mp hbind
    obtain ⟨n, hn, hkey, hsupply, htaken⟩ := firstFree?_eq_some hfound
    cases heq
    have hnew : Roll.contains l found.key = false := by
      rw [← h.contains_eq]
      exact contains_eq_false_iff.mpr hfree
    have htaken' : ∀ m < n, Roll.contains l (KeySupply.candidate r.shape r.supply m) = true := by
      intro m hm
      rw [← h.contains_eq]
      exact htaken m hm
    refine ⟨_, ?_, h.append ⟨found.key, feature, field, sampler⟩ hnew _ _⟩
    have hstep := Roll.Step.bind (h.size_eq ▸ hn) htaken' (hkey ▸ hnew) feature field sampler
    rw [← hkey, ← hsupply] at hstep
    exact hstep

/-- One act is answered, and done, as on a roll. -/
theorem Holds.respond (h : r.Holds l) (act : Act σ) :
    ∃ l', Roll.Step r.shape r.patience r.supply l act (r.respond act).1 (r.respond act).2.supply
      l' ∧ (r.respond act).2.Holds l' := by
  cases act with
  | bind feature field sampler => exact h.bind feature field sampler
  | rebind key sampler =>
    have hflag : (r.rebind key sampler).1 = Roll.contains l key := by
      rw [← h.contains_eq, Registry.rebind]
      split <;> simp [*]
    refine ⟨Roll.rebind l key sampler, ?_, h.rebind key sampler⟩
    show Roll.Step _ _ _ l _ (.flag (r.rebind key sampler).1) (r.rebind key sampler).2.supply _
    rw [hflag, rebind_supply]
    exact .rebind ..
  | unbind key =>
    cases hshape : r.shape.admits key with
    | true =>
      have hflag : (r.remove key).1 = Roll.contains l key := by
        rw [← h.contains_eq, contains_eq_isSome, Registry.remove]
        split <;> simp [*]
      rw [Registry.respond, unbind_of_admits hshape]
      refine ⟨Roll.unbind l key, ?_, h.remove key⟩
      show Roll.Step _ _ _ l _ (.flag (r.remove key).1) (r.remove key).2.supply _
      rw [hflag, remove_supply]
      exact .unbind _ _ hshape
    | false =>
      have hrefused : r.unbind key = .error (.foreignKey key) := by
        rw [Registry.unbind, hshape]
        rfl
      rw [Registry.respond, hrefused]
      exact ⟨l, .foreignKey r.supply l hshape, h⟩
  | unbindAll feature =>
    have hcount : (r.unbindAll feature).1 = (Roll.ofFeature l feature).length := by
      rw [Registry.unbindAll, h.keysOf_eq, Roll.keysOf, List.length_map]
    refine ⟨Roll.unbindAll l feature, ?_, h.unbindAll feature⟩
    show Roll.Step _ _ _ l _ (.count (r.unbindAll feature).1) r.supply _
    rw [hcount]
    exact .unbindAll ..

private theorem respond_shape (r : Registry κ σ) (act : Act σ) :
    (r.respond act).2.shape = r.shape ∧ (r.respond act).2.patience = r.patience := by
  cases act with
  | bind feature field sampler =>
    rw [respond]
    split
    · rename_i hbind
      obtain ⟨found, -, heq⟩ := Option.map_eq_some_iff.mp hbind
      cases heq
      exact ⟨rfl, rfl⟩
    · exact ⟨rfl, rfl⟩
  | rebind key sampler =>
    show (r.rebind key sampler).2.shape = r.shape ∧ (r.rebind key sampler).2.patience = r.patience
    rw [rebind]
    split <;> exact ⟨rfl, rfl⟩
  | unbind key =>
    rw [respond]
    split
    · rename_i held r' hunbind
      have hr' := eq_remove_of_unbind hunbind
      subst hr'
      rw [remove]
      split <;> exact ⟨rfl, rfl⟩
    · exact ⟨rfl, rfl⟩
  | unbindAll feature => exact ⟨rfl, rfl⟩

private theorem Holds.respondEach (h : r.Holds l) (acts : List (Act σ)) :
    ∃ l', Roll.Run r.shape r.patience r.supply l acts (r.respondEach acts).1
      (r.respondEach acts).2.supply l' ∧ (r.respondEach acts).2.Holds l' := by
  induction acts generalizing r l with
  | nil => exact ⟨l, .nil r.supply l, h⟩
  | cons act acts ih =>
    obtain ⟨l', hstep, hholds⟩ := h.respond act
    obtain ⟨l'', hrun, hholds⟩ := ih hholds
    obtain ⟨hshape, hpatience⟩ := respond_shape r act
    rw [hshape, hpatience] at hrun
    exact ⟨l'', .cons hstep hrun, hholds⟩

/-- A registry is a list of bindings: it answers acts as the list does, and then every question, and
one more act leaves all bindings as they are that it is not about. -/
theorem agrees_of_acts (shape : KeyShape) (supply : κ) (patience : Nat) (acts : List (Act σ)) :
    ∃ l, Roll.Run shape patience supply [] acts
        ((empty shape supply patience).respondEach acts).1
        ((empty shape supply patience).respondEach acts).2.supply l ∧
      ((empty shape supply patience).respondEach acts).2.Agrees l ∧
      ∀ act binding, binding ∈ l → ¬ act.Concerns binding →
        (((empty shape supply patience).respondEach acts).2.respond act).2.get? binding.key =
          some binding := by
  obtain ⟨l, hrun, hholds⟩ := (holds_empty shape supply patience).respondEach acts
  refine ⟨l, hrun, hholds.agrees, ?_⟩
  intro act binding hmem hother
  obtain ⟨l', hstep, hholds'⟩ := hholds.respond act
  rw [hholds'.get?_eq]
  exact Roll.get?_of_mem hholds'.distinct (hstep.mem_of_not_concerns hmem hother)

end Acts

end Registry

end FeatureStyle
