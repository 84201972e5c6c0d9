import FeatureStyle.Proofs.Choice.Selection
import FeatureStyle.Proofs.Layer.Plain
import FeatureStyle.Proofs.Value.RoundTrip

/-!
# Expressions without a value

Resolution and the fallback of degraded features walk values separately. They treat an expression
without a value alike, wherever it stands. The main statement is `Value.resolve_unset`: where no
expression has a value, the two come to the same, and a value without expressions comes out of both
as it is.
-/

namespace FeatureStyle
namespace Value

variable {f : Feature} {v w : Value}

/-- No expression in a value is a constant, and none has a value for a feature. -/
structure Unset (f : Feature) (v : Value) : Prop where
  literal : ∀ u, ¬ Part (expression (.constant u)) v
  conditions : ∀ branches, Part (expression (.conditions branches)) v →
    (Expression.conditions branches).evaluate f = none

private theorem Unset.part (h : v.Unset f) (hpart : Part w v) : w.Unset f where
  literal u hu := h.literal u (hu.trans hpart)
  conditions branches hbranches := h.conditions branches (hbranches.trans hpart)

private theorem unset_object {fields : List (String × Value)} :
    (object fields).Unset f ↔ ∀ entry ∈ fields, entry.2.Unset f := by
  constructor
  · intro h entry hentry
    exact h.part (.field hentry (.whole entry.2))
  · intro h
    constructor
    · intro u hpart
      cases hpart with
      | field hentry hpart => exact (h _ hentry).literal u hpart
    · intro branches hpart
      cases hpart with
      | field hentry hpart => exact (h _ hentry).conditions branches hpart

private theorem unset_array {items : List Value} :
    (array items).Unset f ↔ ∀ item ∈ items, item.Unset f := by
  constructor
  · intro h item hitem
    exact h.part (.item hitem (.whole item))
  · intro h
    constructor
    · intro u hpart
      cases hpart with
      | item hitem hpart => exact (h _ hitem).literal u hpart
    · intro branches hpart
      cases hpart with
      | item hitem hpart => exact (h _ hitem).conditions branches hpart

private theorem unset_conditions {branches : List Branch} :
    (expression (.conditions branches)).Unset f ↔
      (Expression.conditions branches).evaluate f = none := by
  constructor
  · intro h
    exact h.conditions branches (.whole _)
  · intro h
    constructor
    · intro u hpart
      cases hpart
    · intro branches hpart
      cases hpart
      exact h

mutual

/-- Where every expression is unset, resolution takes the course of the removal of expressions. -/
theorem resolved?_unset : ∀ v : Value, v.Unset f → resolved? f v = v.plain
  | expression (.constant u), h => absurd (.whole _) (h.literal u)
  | expression (.conditions branches), h => by
    rw [resolved?, plain]
    exact unset_conditions.mp h
  | object fields, h => by
    rw [resolved?, plain, resolvedFields_unset fields (unset_object.mp h)]
  | array items, h => by
    rw [resolved?, plain, resolvedItems_unset items (unset_array.mp h)]
  | null, _ | bool _, _ | number _, _ | string _, _ => by simp only [resolved?, plain]

private theorem resolvedFields_unset : ∀ fields : List (String × Value),
    (∀ entry ∈ fields, entry.2.Unset f) → resolvedFields f fields = plainFields fields
  | [], _ => by rw [resolvedFields, plainFields]
  | (key, value) :: rest, h => by
    obtain ⟨hvalue, hrest⟩ := List.forall_mem_cons.mp h
    have hresolved := resolved?_unset value hvalue
    have hothers := resolvedFields_unset rest hrest
    cases hplain : value.plain with
    | none => simp only [resolvedFields, plainFields, hresolved, hplain, hothers]
    | some known => simp only [resolvedFields, plainFields, hresolved, hplain, hothers]

theorem resolvedItems_unset : ∀ items : List Value, (∀ item ∈ items, item.Unset f) →
    resolvedItems f items = plainItems items
  | [], _ => by rw [resolvedItems, plainItems]
  | item :: rest, h => by
    obtain ⟨hitem, hrest⟩ := List.forall_mem_cons.mp h
    rw [resolvedItems, plainItems, resolved?_unset item hitem, resolvedItems_unset rest hrest]

end

mutual

theorem resolve_expressionless (f : Feature) (field : String) : ∀ (v : Value) (q : Progress),
    v.hasExpression = false → v.resolve f field q = (some v, q)
  | expression _, _, h => by cases h
  | object fields, q, h => by rw [resolve, resolveFields_expressionless f field fields q h]
  | array items, q, h => by rw [resolve, resolveItems_expressionless f field items q h]
  | null, _, _ | bool _, _, _ | number _, _, _ | string _, _, _ => by simp only [resolve]

theorem resolveFields_expressionless (f : Feature) (field : String) :
    ∀ (fields : List (String × Value)) (q : Progress), hasExpressionFields fields = false →
      resolveFields f field fields q = (fields, q)
  | [], q, _ => by rw [resolveFields]
  | (key, value) :: rest, q, h => by
    obtain ⟨hvalue, hrest⟩ := Bool.or_eq_false_iff.mp h
    simp only [resolveFields, resolve_expressionless f field value q hvalue,
      resolveFields_expressionless f field rest q hrest]

theorem resolveItems_expressionless (f : Feature) (field : String) :
    ∀ (items : List Value) (q : Progress), hasExpressionItems items = false →
      resolveItems f field items q = (items, q)
  | [], q, _ => by rw [resolveItems]
  | item :: rest, q, h => by
    obtain ⟨hitem, hrest⟩ := Bool.or_eq_false_iff.mp h
    simp only [resolveItems, resolve_expressionless f field item q hitem,
      resolveItems_expressionless f field rest q hrest, Option.getD_some]

end

private theorem hasExpression_of_part {e : Expression Value} (h : Part (expression e) v) :
    v.hasExpression = true := by
  induction h with
  | whole => rfl
  | field hmem _ ih => exact hasExpressionFields_iff.mpr ⟨_, hmem, ih⟩
  | item hmem _ ih => exact hasExpressionItems_iff.mpr ⟨_, hmem, ih⟩
  | constant _ _ => rfl

private theorem unset_expressionless (h : v.hasExpression = false) : v.Unset f where
  literal u hu := by
    rw [hasExpression_of_part hu] at h
    cases h
  conditions branches hbranches := by
    rw [hasExpression_of_part hbranches] at h
    cases h

private theorem plain_expressionless (h : v.hasExpression = false) : v.plain = some v := by
  have hyields := resolve_yields (.ofId ⟨""⟩) "" v ⟨[], [], []⟩ ChoiceTable.valid_nil
  rw [← resolved?_unset v (unset_expressionless h), ← hyields.value,
    resolve_expressionless _ _ v _ h]

/-- Where the expressions of a value are branches of which none holds, resolution in the middle of
any pass comes to what is left of the value without its expressions: to nothing exactly if the value
is an expression itself. Resolution and the removal of expressions leave a value without expressions
as it is, and so the fields of a layer that keeps to the limit are those it falls back to, if all its
expressions are unset. -/
theorem resolve_unset :
    (∀ (f : Feature) (v : Value), v.Unset f → ∀ (κ σ : Type) [KeySupply κ] (q : Progress),
      q.Midway κ σ → ∀ field,
        (v.resolve f field q).1 = v.plain ∧
          ((v.resolve f field q).1 = none ↔ ∃ e, v = expression e)) ∧
      (∀ v : Value, v.hasExpression = false →
        v.plain = some v ∧ ∀ f field q, v.resolve f field q = (some v, q)) ∧
      ∀ (f : Feature) (layer : Tree) (limit : Nat), layer.depth ≤ limit → layer.toValue.Unset f →
        ∀ (κ σ : Type) [KeySupply κ] (q : Progress), q.Midway κ σ →
          (Tree.resolveRoot f layer.fields q).1 = layer.fallback limit := by
  refine ⟨?_, ?_, ?_⟩
  · intro f v h κ σ _ q hq field
    have hplain : (v.resolve f field q).1 = v.plain :=
      (v.resolve_yields f field q hq.valid).value.trans (resolved?_unset v h)
    exact ⟨hplain, hplain ▸ plain_eq_none_iff⟩
  · intro v h
    exact ⟨plain_expressionless h, fun f field q => resolve_expressionless f field v q h⟩
  · intro f layer limit hdepth h κ σ _ q hq
    rw [Tree.fallback, if_neg (Nat.not_lt.mpr hdepth),
      ← resolvedFields_unset layer.fields (unset_object.mp h)]
    exact (Tree.resolveRoot_yields f layer.fields q hq.valid).value

/-- Lamps of which one has branches that do not hold, and the shade's color one that is broken. -/
def lantern : Tree := ⟨[
  ("lamps", .array [.string "on", .expression (.conditions [⟨"false", "off"⟩])]),
  ("shade", .object [("color", .expression (.conditions [⟨"", "red"⟩])), ("width", .number .one)])]⟩

/-- The lantern comes to the same by resolution, after `mixed` was resolved, and by the fallback. -/
theorem resolve_lantern :
    let f : Feature := .ofId ⟨"f"⟩
    let pass := (Pipeline.reading none none).perform Pipeline.soleKey
      (.resolve Pipeline.mixed none f)
    lantern.toValue.Unset f ∧ pass.pipeline.choices.length = 3 ∧
      (lantern.toValue.resolve f "x" ⟨pass.pipeline.choices, [], []⟩).1 = lantern.toValue.plain ∧
      (Tree.resolveRoot f lantern.fields ⟨pass.pipeline.choices, [], []⟩).1 = lantern.fallback 2 ∧
      lantern.fallback 2 = [("lamps", .array [.string "on", .null]),
        ("shade", .object [("width", .number .one)])] ∧
      ∀ q : Progress, Value.timed.resolve f "x" q = (some Value.timed, q) := by
  intro f pass
  have hunset : lantern.toValue.Unset f := by
    have hlamp : (Expression.conditions [⟨"false", "off"⟩]).evaluate f = none := by decide +kernel
    have hcolor : (Expression.conditions [⟨"", "red"⟩]).evaluate f = none := by decide +kernel
    simp only [lantern, Tree.toValue, unset_object, unset_array, unset_conditions,
      List.forall_mem_cons, hlamp, hcolor, unset_expressionless (v := string "on") rfl,
      unset_expressionless (v := number .one) rfl, List.not_mem_nil, false_implies, implies_true,
      and_self]
  have hmidway : Progress.Midway KeySupply.Same Value ⟨pass.pipeline.choices, [], []⟩ :=
    .start (.perform (.empty _ _ _) Pipeline.soleKey _)
  obtain ⟨hvalue, hexpressionless, hlayer⟩ := resolve_unset
  exact ⟨hunset, by decide +kernel, (hvalue f _ hunset _ _ _ hmidway "x").1,
    hlayer f lantern 2 (by decide) hunset _ _ _ hmidway, rfl,
    (hexpressionless .timed rfl).2 f "x"⟩

end Value
end FeatureStyle
