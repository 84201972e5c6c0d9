import FeatureStyle.Proofs.Layer.Ordered
import FeatureStyle.Proofs.Pipeline.Outcome

/-!
# Values without their expressions

What is left of a value when each of its expressions is treated as if it had no value, said along
paths. The main statement is `Tree.reduces_fallback`: a degraded feature has the layer without its
expressions, or only the scalar fields of a layer that is too deep.
-/

namespace FeatureStyle

/-- What stands in place of an expression that a step leads to: nothing in an object, null in an
array. -/
def PathStep.vacant : PathStep → Option Value
  | field _ => none
  | index _ => some .null

namespace Value

variable {v w x : Value} {step : PathStep} {path : Path} {result : Option Value}

/-- What has to stand at the end of a path when a value is freed of its expressions. Scalars stay as
they are. Objects keep the names whose values are no expressions, in their order, and arrays their
length. An expression is gone from an object, and null in an array. Nothing else is there. -/
structure BaredAt (v : Value) (path : Path) (result : Option Value) : Prop where
  scalar : ∀ x, v.at? path = some x → x.isScalar = true → result = some x
  object : ∀ fields, v.at? path = some (object fields) → ∃ kept, result = some (object kept) ∧
    kept.map Prod.fst = (fields.filter fun entry => entry.2.expression?.isNone).map Prod.fst
  array : ∀ items, v.at? path = some (array items) → ∃ kept, result = some (array kept) ∧
    kept.length = items.length
  vacant : ∀ start step e, path = start ++ [step] → v.at? path = some (expression e) →
    result = step.vacant
  absent : v.at? path = none → result = none

theorem plain_eq_none_iff : v.plain = none ↔ ∃ e, v = expression e := by
  cases v with
  | expression e => exact iff_of_true rfl ⟨e, rfl⟩
  | _ => exact iff_of_false (by simp [plain]) (by simp)

private theorem plain_of_isScalar (h : v.isScalar = true) : v.plain = some v := by
  cases v with
  | object fields => cases h
  | array items => cases h
  | expression e => cases h
  | _ => rfl

private theorem get?_plainFields {fields : List (String × Value)} (h : Table.Functional fields)
    (name : String) :
    Fields.get? (plainFields fields) name = (Fields.get? fields name).bind plain := by
  induction fields with
  | nil => rfl
  | cons entry rest ih =>
    obtain ⟨key, value⟩ := entry
    obtain ⟨hnew, hrest⟩ := List.nodup_cons.mp h
    rw [plainFields, Fields.get?_cons]
    by_cases hkey : key = name
    · -- the name stands nowhere else, so that nothing takes the place of an expression
      have hnone : Fields.get? (plainFields rest) name = none := by
        apply Table.get?_eq_none_iff.mpr
        intro hmem
        exact hnew (hkey ▸ (plainFields_keys_sublist rest).subset hmem)
      rw [if_pos hkey, Option.bind_some]
      cases plain value with
      | none => exact hnone
      | some known => exact if_pos hkey
    · rw [if_neg hkey, ← ih hrest]
      cases plain value with
      | none => rfl
      | some known => exact if_neg hkey

private theorem plainItems_eq_map (items : List Value) :
    plainItems items = items.map fun item => item.plain.getD null := by
  induction items with
  | nil => rfl
  | cons item items ih => rw [plainItems, List.map_cons, ih]

theorem step?_plain (h : v.Ordered) (hw : v.plain = some w) (step : PathStep) :
    w.step? step = (v.step? step).bind fun x => x.plain.or step.vacant := by
  cases v with
  | object fields =>
    cases hw
    cases step with
    | field name =>
      simp only [step?, PathStep.vacant, Option.or_none]
      exact get?_plainFields (Fields.functional_of_sorted (h [] fields rfl)) name
    | index n => rfl
  | array items =>
    cases hw
    cases step with
    | field name => rfl
    | index n =>
      simp only [step?, PathStep.vacant, plainItems_eq_map, List.getElem?_map]
      cases items[n]? with
      | none => rfl
      | some item => cases hplain : item.plain <;> simp [hplain]
  | expression e => cases hw
  | _ =>
    cases hw
    rfl

private theorem baredAt_nil (hw : v.plain = some w) : BaredAt v [] (some w) where
  scalar x hx hscalar := by
    cases hx
    rw [← hw, plain_of_isScalar hscalar]
  object fields hfields := by
    cases hfields
    cases hw
    exact ⟨_, rfl, keys_plainFields fields⟩
  array items hitems := by
    cases hitems
    cases hw
    exact ⟨_, rfl, by rw [plainItems_eq_map, List.length_map]⟩
  vacant start step e hpath := by simp at hpath
  absent hnone := by cases hnone

private theorem BaredAt.cons (hstep : v.step? step = some x) (hx : x.expression?.isNone = true)
    (h : BaredAt x path result) : BaredAt v (step :: path) result := by
  have hat : v.at? (step :: path) = x.at? path := by rw [at?_cons, hstep, Option.bind_some]
  refine ⟨hat ▸ h.scalar, hat ▸ h.object, hat ▸ h.array, ?_, hat ▸ h.absent⟩
  intro start last e hpath hexpression
  rw [hat] at hexpression
  cases start with
  | nil =>
    cases hpath
    cases hexpression
    cases hx
  | cons first start => exact h.vacant start last e (List.cons.inj hpath).2 hexpression

private theorem baredAt_absent (h : v.at? path = none) : BaredAt v path none where
  scalar x hx := by rw [h] at hx; cases hx
  object fields hfields := by rw [h] at hfields; cases hfields
  array items hitems := by rw [h] at hitems; cases hitems
  vacant start step e _ hexpression := by rw [h] at hexpression; cases hexpression
  absent _ := rfl

private theorem baredAt_expression {e : Expression Value}
    (hstep : v.step? step = some (expression e)) :
    BaredAt v (step :: path) (step.vacant.bind fun w => w.at? path) := by
  have hat : v.at? (step :: path) = (expression e).at? path := by
    rw [at?_cons, hstep, Option.bind_some]
  cases path with
  | nil =>
    refine ⟨?_, ?_, ?_, ?_, ?_⟩
    · intro x hx hscalar
      cases hat.symm.trans hx
      cases hscalar
    · intro fields hfields
      cases hat.symm.trans hfields
    · intro items hitems
      cases hat.symm.trans hitems
    · intro start last e hpath _
      have hlast : step = last := by simpa using congrArg List.getLast? hpath
      rw [hlast]
      cases last <;> rfl
    · intro hnone
      cases hat.symm.trans hnone
  | cons next path =>
    have hvacant : (step.vacant.bind fun w => w.at? (next :: path)) = none := by
      cases step <;> rfl
    rw [hvacant]
    exact baredAt_absent hat

/-- The law of plain values at every path, by induction on the path. -/
theorem baredAt_plain (h : v.Ordered) (hw : v.plain = some w) (path : Path) :
    BaredAt v path (w.at? path) := by
  induction path generalizing v w with
  | nil => exact baredAt_nil hw
  | cons step path ih =>
    rw [at?_cons, step?_plain h hw]
    cases hstep : v.step? step with
    | none => exact baredAt_absent (by rw [at?_cons, hstep, Option.bind_none])
    | some x =>
      rw [Option.bind_some]
      cases hplain : x.plain with
      | none =>
        obtain ⟨e, rfl⟩ := plain_eq_none_iff.mp hplain
        exact baredAt_expression hstep
      | some y =>
        have hx : x.expression?.isNone = true := by
          cases x with
          | expression e => cases hplain
          | _ => rfl
        exact (ih (h.of_step? hstep) hplain).cons hstep hx

end Value

namespace Tree

/-- What a layer is reduced to for a degraded feature: to what is left without its expressions if it
keeps to the limit, else to its scalar fields. -/
structure ReducesTo (layer : Tree) (limit : Nat) (fields : List (String × Value)) : Prop where
  bared : layer.depth ≤ limit → ∀ path,
    Value.BaredAt layer.toValue path ((Value.object fields).at? path)
  scalars : limit < layer.depth → ∀ field,
    Fields.get? fields field = (layer.get? field).filter Value.isScalar

theorem reduces_fallback (layer : OrderedTree) (limit : Nat) :
    layer.ReducesTo limit (layer.fallback limit) where
  bared hdepth := by
    rw [fallback, if_neg (Nat.not_lt.mpr hdepth)]
    exact Value.baredAt_plain layer.ordered rfl
  scalars hdepth field := by
    rw [fallback, if_pos hdepth]
    exact Table.get?_filter (Fields.functional_of_sorted layer.sorted) Value.isScalar field

end Tree
end FeatureStyle
