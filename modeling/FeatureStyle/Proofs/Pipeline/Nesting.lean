import FeatureStyle.Proofs.Pipeline.Provenance
import FeatureStyle.Proofs.Value.RoundTrip

/-!
# How deep bags are nested

The limit is on the depth of a tree, for which the inside of an expression does not count. What is
shown of a constant is its value, with all its depth. So a field of a bag is as deep as the field of
the tree with every constant counted as deep as its value, and that is within the limit as long as
constants hold neither objects nor arrays. The main statement is `nested_of_arises`.
-/

namespace FeatureStyle

namespace Value

mutual

/-- How deep objects and arrays are nested, those in constants included. -/
def fullDepth : Value → Nat
  | object fields => 1 + fullDepthFields fields
  | array items => 1 + fullDepthItems items
  | expression (.constant value) => fullDepth value
  | expression (.conditions _) | null | bool _ | number _ | string _ => 0

def fullDepthFields : List (String × Value) → Nat
  | [] => 0
  | (_, value) :: fields => max (fullDepth value) (fullDepthFields fields)

def fullDepthItems : List Value → Nat
  | [] => 0
  | item :: items => max (fullDepth item) (fullDepthItems items)

end

private theorem depth_of_isScalar {v : Value} (h : v.isScalar = true) : v.depth = 0 := by
  cases v with
  | object fields => cases h
  | array items => cases h
  | _ => rfl

mutual

/-- A value resolves to one of its full depth, where an unset one counts as null: branches only give
scalars. -/
theorem depth_resolved? (f : Feature) : ∀ v : Value,
    ((resolved? f v).getD null).depth = v.fullDepth
  | expression (.constant value) => by
    rw [resolved?, fullDepth]
    exact depth_resolved? f value
  | expression (.conditions branches) => by
    rw [resolved?, fullDepth]
    cases hvalue : (Choice.ofBranches branches).evaluate f with
    | none => rfl
    | some value => exact depth_of_isScalar (isScalar_of_evaluate hvalue)
  | object fields => by
    rw [resolved?, fullDepth, Option.getD_some, depth, depthFields_resolvedFields f fields]
  | array items => by
    rw [resolved?, fullDepth, Option.getD_some, depth, depthItems_resolvedItems f items]
  | null | bool _ | number _ | string _ => rfl

theorem depthFields_resolvedFields (f : Feature) : ∀ fields : List (String × Value),
    depthFields (resolvedFields f fields) = fullDepthFields fields
  | [] => rfl
  | (key, value) :: rest => by
    have hvalue := depth_resolved? f value
    have hrest := depthFields_resolvedFields f rest
    rw [resolvedFields, fullDepthFields, ← hvalue, ← hrest]
    cases resolved? f value with
    | none => exact (Nat.zero_max _).symm
    | some known => rfl

theorem depthItems_resolvedItems (f : Feature) : ∀ items : List Value,
    depthItems (resolvedItems f items) = fullDepthItems items
  | [] => rfl
  | item :: rest => by
    rw [resolvedItems, depthItems, fullDepthItems, depth_resolved? f item,
      depthItems_resolvedItems f rest]

end

private theorem mem_resolvedFields {f : Feature} {fields : List (String × Value)} {key : String}
    {value : Value} (h : (key, value) ∈ resolvedFields f fields) :
    ∃ v, (key, v) ∈ fields ∧ value.depth = v.fullDepth := by
  induction fields with
  | nil => cases h
  | cons entry fields ih =>
    obtain ⟨name, v⟩ := entry
    have hdepth := depth_resolved? f v
    rw [resolvedFields] at h
    cases hresolved : resolved? f v with
    | none =>
      rw [hresolved] at h
      obtain ⟨other, hother, hvalue⟩ := ih h
      exact ⟨other, List.mem_cons_of_mem _ hother, hvalue⟩
    | some known =>
      rw [hresolved] at h hdepth
      rcases List.mem_cons.mp h with heq | hrest
      · cases heq
        exact ⟨v, List.mem_cons_self, hdepth⟩
      · obtain ⟨other, hother, hvalue⟩ := ih hrest
        exact ⟨other, List.mem_cons_of_mem _ hother, hvalue⟩

mutual

theorem fullDepth_canonical : ∀ v : Value, v.canonical.fullDepth = v.fullDepth
  | object fields => by
    rw [canonical, fullDepth, fullDepth, fullDepthFields_canonicalFields fields]
  | array items => by rw [canonical, fullDepth, fullDepth, fullDepthItems_canonicalItems items]
  | expression (.constant value) => by
    rw [canonical, fullDepth, fullDepth, fullDepth_canonical value]
  | expression (.conditions _) | null | bool _ | number _ | string _ => rfl

theorem fullDepthFields_canonicalFields : ∀ fields : List (String × Value),
    fullDepthFields (canonicalFields fields) = fullDepthFields fields
  | [] => rfl
  | (_, value) :: rest => by
    rw [canonicalFields, fullDepthFields, fullDepthFields, fullDepth_canonical value,
      fullDepthFields_canonicalFields rest]

theorem fullDepthItems_canonicalItems : ∀ items : List Value,
    fullDepthItems (canonicalItems items) = fullDepthItems items
  | [] => rfl
  | item :: rest => by
    rw [canonicalItems, fullDepthItems, fullDepthItems, fullDepth_canonical item,
      fullDepthItems_canonicalItems rest]

end

theorem mem_of_canonicalFields_eq {fields fields' : List (String × Value)}
    (h : canonicalFields fields = canonicalFields fields') {key : String} {v : Value}
    (hmem : (key, v) ∈ fields) : ∃ v', (key, v') ∈ fields' ∧ v.fullDepth = v'.fullDepth := by
  have hcanonical : (key, v.canonical) ∈ canonicalFields fields' := by
    rw [← h, canonicalFields_eq_map]
    exact List.mem_map.mpr ⟨(key, v), hmem, rfl⟩
  rw [canonicalFields_eq_map] at hcanonical
  obtain ⟨⟨name, v'⟩, hmem', heq⟩ := List.mem_map.mp hcanonical
  obtain ⟨rfl, hv⟩ := Prod.mk.inj heq
  refine ⟨v', hmem', ?_⟩
  rw [← fullDepth_canonical v, ← hv, fullDepth_canonical]

/-- No constant in the value holds an object or an array. -/
def FlatConstants (v : Value) : Prop := ∀ u, Part (expression (.constant u)) v → u.depth = 0

mutual

theorem fullDepth_eq_depth : ∀ v : Value, v.FlatConstants → v.fullDepth = v.depth
  | object fields, h => by
    rw [fullDepth, depth, fullDepthFields_eq_depthFields fields]
    intro entry hentry u hpart
    exact h u (.field hentry hpart)
  | array items, h => by
    rw [fullDepth, depth, fullDepthItems_eq_depthItems items]
    intro item hitem u hpart
    exact h u (.item hitem hpart)
  | expression (.constant value), h => by
    rw [fullDepth, fullDepth_eq_depth value fun u hpart => h u (.constant hpart)]
    exact h value (.whole _)
  | expression (.conditions _), _ | null, _ | bool _, _ | number _, _ | string _, _ => rfl

theorem fullDepthFields_eq_depthFields : ∀ fields : List (String × Value),
    (∀ entry ∈ fields, entry.2.FlatConstants) → fullDepthFields fields = depthFields fields
  | [], _ => rfl
  | (_, value) :: rest, h => by
    obtain ⟨hvalue, hrest⟩ := List.forall_mem_cons.mp h
    rw [fullDepthFields, depthFields, fullDepth_eq_depth value hvalue,
      fullDepthFields_eq_depthFields rest hrest]

theorem fullDepthItems_eq_depthItems : ∀ items : List Value,
    (∀ item ∈ items, item.FlatConstants) → fullDepthItems items = depthItems items
  | [], _ => rfl
  | item :: rest, h => by
    obtain ⟨hitem, hrest⟩ := List.forall_mem_cons.mp h
    rw [fullDepthItems, depthItems, fullDepth_eq_depth item hitem,
      fullDepthItems_eq_depthItems rest hrest]

end

end Value

/-- A value stands for a field of the tree: it is as deep as that field is in full, and if the
field's constants are flat, its depth is within a limit that the root counts towards. -/
def Tree.NestsAt (tree : Tree) (limit : Nat) (field : String) (w : Value) : Prop :=
  ∃ v, (field, v) ∈ tree.fields ∧ w.depth = v.fullDepth ∧ (v.FlatConstants → w.depth ≤ limit - 1)

private theorem Outcome.nestsAt {limit : Nat} {layer tree tree' : Tree} {feature : Feature}
    (htree : Value.canonicalFields tree'.fields = Value.canonicalFields tree.fields)
    (hdepth : ¬ limit < tree.depth) {field : String} {w : Value}
    (h : (field, w) ∈ (Outcome.of limit layer tree' feature).fields) :
    tree.NestsAt limit field w := by
  have hdepth' := hdepth
  rw [← Tree.depth_eq htree] at hdepth'
  rw [of_evaluated hdepth'] at h
  obtain ⟨v', hmem', hw⟩ := Value.mem_resolvedFields h
  obtain ⟨v, hmem, hv⟩ := Value.mem_of_canonicalFields_eq htree hmem'
  refine ⟨v, hmem, hw.trans hv, ?_⟩
  intro hflat
  have hle : v.depth ≤ Value.depthFields tree.fields :=
    Value.depthFields_le_iff.mp (Nat.le_refl _) (field, v) hmem
  rw [Tree.depth, Tree.toValue, Value.depth] at hdepth
  rw [hw, hv, Value.fullDepth_eq_depth v hflat]
  omega

namespace Pipeline

variable {κ σ : Type} [KeySupply κ] {p : Pipeline σ}

/-- In a bag that is not degraded, static fields and the values that bindings sample are nested as
deep as the fields of the tree they stand for. -/
theorem nested_of_arises (h : Arises κ p) (r : Registry κ σ) (call : Call) {layer : OrderedTree}
    {upper : Option OrderedTree} {features : List Feature}
    (hrequest : call.request? = some (layer, upper, features)) {bags : List (Bag σ)}
    (hok : (p.perform r call).result = .ok bags) {bag : Bag σ} (hbag : bag ∈ bags)
    (hevaluated : bag.isDegraded = false) :
    (∀ field w, (field, w) ∈ bag.fields →
      (layer.layered upper).NestsAt p.settings.depthLimit field w) ∧
    ∀ field binding, (field, binding) ∈ bag.dynamic → ∃ w,
      binding.sampler = p.sampler bag.feature field w ∧
        (layer.layered upper).NestsAt p.settings.depthLimit field w := by
  obtain ⟨feature, -, hanswers⟩ := h.answers hrequest hok hbag
  have hdepth : ¬ p.settings.depthLimit < (layer.layered upper).depth := by
    rw [← hanswers.isDegraded_iff, hevaluated]
    exact Bool.false_ne_true
  obtain ⟨layer', tree', feature', htree, -, hstems⟩ := hanswers
  constructor
  · intro field w hmem
    rw [hstems.fields_eq] at hmem
    exact Outcome.nestsAt htree hdepth (List.mem_filter.mp hmem).1
  · intro field binding hmem
    obtain ⟨w, hw, hsampler⟩ := hstems.dynamic field binding hmem
    rw [hstems.feature_eq]
    exact ⟨w, hsampler, Outcome.nestsAt htree hdepth (List.mem_filter.mp hw).1⟩

/-- The bag of `mixed`, in which one constant holds an object. -/
theorem nested_mixed :
    let call := Call.resolve mixed none (.ofId ⟨"f"⟩)
    ∃ bag, ((reading none none).perform soleKey call).result = .ok [bag] ∧
      bag.isDegraded = false ∧
      (∀ field w, (field, w) ∈ bag.fields → mixed.NestsAt 64 field w) ∧
      ∀ field binding, (field, binding) ∈ bag.dynamic → ∃ w,
        binding.sampler = (reading none none).sampler bag.feature field w ∧
          mixed.NestsAt 64 field w := by
  intro call
  have harises : Arises KeySupply.Same (reading none none) := .empty _ _ _
  refine ⟨_, rfl, by decide +kernel, ?_⟩
  exact nested_of_arises harises soleKey call rfl rfl List.mem_cons_self (by decide +kernel)

/-- A field that shows an object and one that depends on time, both given by constants. -/
def filled : OrderedTree where
  fields := [
    ("a", .expression (.constant (.object [("k", .number .one)]))),
    ("x", .expression (.constant .timed))]
  ordered := by decide

/-- A tree with only constants below its root is within every limit, but what the constants hold is
not. -/
theorem filled_too_deep :
    let p := reading (some 1) none
    let call := Call.resolve filled none (.ofId ⟨"f"⟩)
    Arises KeySupply.Same p ∧ p.settings.depthLimit = 1 ∧
      ∃ bag, (p.perform soleKey call).result = .ok [bag] ∧ bag.isDegraded = false ∧
        (∃ w, ("a", w) ∈ bag.fields ∧ p.settings.depthLimit - 1 < w.depth) ∧
        ∃ binding w, ("x", binding) ∈ bag.dynamic ∧
          binding.sampler = p.sampler bag.feature "x" w ∧ p.settings.depthLimit - 1 < w.depth := by
  intro p call
  refine ⟨.empty _ _ _, rfl, _, rfl, by decide +kernel, ⟨_, List.mem_cons_self, by decide⟩, ?_⟩
  exact ⟨_, _, List.mem_cons_self, rfl, by decide⟩

end Pipeline
end FeatureStyle
