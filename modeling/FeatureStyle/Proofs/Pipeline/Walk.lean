import FeatureStyle.Proofs.Pipeline.Outcome

/-!
# Walks

The reference for what a value resolves to, as a relation that knows of no choices kept: an
expression is evaluated afresh, and what it evaluates to is walked in its place. The main statement
is `Tree.walk_iff`: there is exactly one walk through the fields of a root, and it gives what
resolution gives. As branches only give scalars, a walk goes down the value it started from and
leaves no expression.
-/

namespace FeatureStyle

namespace Value

variable {f : Feature}

private theorem isScalar_ofText (text : String) : (ofText text).isScalar = true := by
  rw [ofText]
  split
  · rfl
  · split
    · rfl
    · split <;> rfl

private theorem isScalar_render (t : Template) (f : Feature) : (t.render f).isScalar = true := by
  unfold Template.render
  split
  · split
    · exact isScalar_ofText _
    · rename_i hvalue
      exact (Option.filter_eq_some_iff.mp hvalue).2
    · exact isScalar_ofText _
  · exact isScalar_ofText _

theorem isScalar_of_evaluate {choice : Choice} {value : Value}
    (h : choice.evaluate f = some value) : value.isScalar = true := by
  obtain ⟨branch, -, rfl⟩ := Option.map_eq_some_iff.mp h
  exact isScalar_render branch.result f

private theorem hasExpression_of_isScalar {value : Value} (h : value.isScalar = true) :
    value.hasExpression = false := by
  cases value with
  | object fields => cases h
  | array items => cases h
  | expression e => cases h
  | _ => rfl

mutual

/-- A way through a value for a feature: what it comes to, none if it stays unset, and the syntax
errors of all branches of all expressions met, in order. -/
inductive Walk (f : Feature) : Value → Option Value → List Defect → Prop
  | scalar {value : Value} (hscalar : value.isScalar = true) : Walk f value (some value) []
  | given {e : Expression Value} {value : Value} {result : Option Value} {defects : List Defect}
      (hvalue : e.evaluate f = some value) (hwalk : Walk f value result defects) :
      Walk f (expression e) result ((e.explain f).defects ++ defects)
  | unset {e : Expression Value} (hnone : e.evaluate f = none) :
      Walk f (expression e) none (e.explain f).defects
  | object {fields out : List (String × Value)} {defects : List Defect}
      (hfields : WalkFields f fields out defects) :
      Walk f (object fields) (some (object out)) defects
  | array {items out : List Value} {defects : List Defect}
      (hitems : WalkItems f items out defects) : Walk f (array items) (some (array out)) defects

/-- A way through fields, of which those that stay unset are left out. -/
inductive WalkFields (f : Feature) :
    List (String × Value) → List (String × Value) → List Defect → Prop
  | nil : WalkFields f [] [] []
  | known {key : String} {value result : Value} {rest out : List (String × Value)}
      {defects more : List Defect} (hvalue : Walk f value (some result) defects)
      (hrest : WalkFields f rest out more) :
      WalkFields f ((key, value) :: rest) ((key, result) :: out) (defects ++ more)
  | unset {key : String} {value : Value} {rest out : List (String × Value)}
      {defects more : List Defect} (hvalue : Walk f value none defects)
      (hrest : WalkFields f rest out more) :
      WalkFields f ((key, value) :: rest) out (defects ++ more)

/-- A way through items, with null in place of those that stay unset. -/
inductive WalkItems (f : Feature) : List Value → List Value → List Defect → Prop
  | nil : WalkItems f [] [] []
  | cons {item : Value} {result : Option Value} {rest out : List Value}
      {defects more : List Defect} (hitem : Walk f item result defects)
      (hrest : WalkItems f rest out more) :
      WalkItems f (item :: rest) (result.getD null :: out) (defects ++ more)

end

mutual

theorem walk_resolved (f : Feature) : ∀ v : Value, Walk f v (resolved? f v) v.defects
  | expression (.constant value) => by
    rw [resolved?, defects]
    exact .given (e := .constant value) rfl (walk_resolved f value)
  | expression (.conditions branches) => by
    rw [resolved?, defects]
    cases hvalue : (Choice.ofBranches branches).evaluate f with
    | none => exact .unset (e := .conditions branches) hvalue
    | some value =>
      have hwalk := Walk.given (e := .conditions branches) hvalue
        (.scalar (isScalar_of_evaluate hvalue))
      rwa [List.append_nil] at hwalk
  | object fields => by
    rw [resolved?, defects]
    exact .object (walkFields_resolved f fields)
  | array items => by
    rw [resolved?, defects]
    exact .array (walkItems_resolved f items)
  | null | bool _ | number _ | string _ => by
    simp only [resolved?, defects]
    exact .scalar rfl

private theorem walkFields_resolved (f : Feature) :
    ∀ fields : List (String × Value), WalkFields f fields (resolvedFields f fields)
      (defectsFields fields)
  | [] => .nil
  | (key, value) :: rest => by
    have hvalue := walk_resolved f value
    have hrest := walkFields_resolved f rest
    rw [resolvedFields, defectsFields]
    cases hresolved : resolved? f value with
    | none =>
      rw [hresolved] at hvalue
      exact .unset hvalue hrest
    | some result =>
      rw [hresolved] at hvalue
      exact .known hvalue hrest

theorem walkItems_resolved (f : Feature) :
    ∀ items : List Value, WalkItems f items (resolvedItems f items) (defectsItems items)
  | [] => .nil
  | item :: rest => by
    rw [resolvedItems, defectsItems]
    exact .cons (walk_resolved f item) (walkItems_resolved f rest)

end

private theorem Walk.of_isScalar {v : Value} {out : Option Value} {ds : List Defect}
    (h : Walk f v out ds)
    (hscalar : v.isScalar = true) : out = some v ∧ ds = [] := by
  cases h with
  | scalar => exact ⟨rfl, rfl⟩
  | given => cases hscalar
  | unset => cases hscalar
  | object => cases hscalar
  | array => cases hscalar

mutual

/-- There is one way through a value. What branches give is scalar, so that walking it adds
nothing. -/
theorem eq_of_walk : ∀ (v : Value) {out : Option Value} {ds : List Defect}, Walk f v out ds →
    out = resolved? f v ∧ ds = v.defects
  | expression (.constant value), _, _, h => by
    rw [resolved?, defects]
    cases h with
    | scalar hscalar => cases hscalar
    | given hvalue hwalk =>
      cases hvalue
      exact eq_of_walk value hwalk
    | unset hnone => cases hnone
  | expression (.conditions branches), _, _, h => by
    rw [resolved?, defects]
    cases h with
    | scalar hscalar => cases hscalar
    | given hvalue hwalk =>
      obtain ⟨rfl, rfl⟩ := hwalk.of_isScalar (isScalar_of_evaluate hvalue)
      exact ⟨hvalue.symm, List.append_nil _⟩
    | unset hnone => exact ⟨hnone.symm, rfl⟩
  | object fields, _, _, h => by
    rw [resolved?, defects]
    cases h with
    | scalar hscalar => cases hscalar
    | object hfields =>
      obtain ⟨rfl, rfl⟩ := eq_of_walkFields fields hfields
      exact ⟨rfl, rfl⟩
  | array items, _, _, h => by
    rw [resolved?, defects]
    cases h with
    | scalar hscalar => cases hscalar
    | array hitems =>
      obtain ⟨rfl, rfl⟩ := eq_of_walkItems items hitems
      exact ⟨rfl, rfl⟩
  | null, _, _, h | bool _, _, _, h | number _, _, _, h | string _, _, _, h => by
    obtain ⟨rfl, rfl⟩ := h.of_isScalar rfl
    simp only [resolved?, defects, and_self]

theorem eq_of_walkFields : ∀ (fields : List (String × Value)) {out : List (String × Value)}
    {ds : List Defect}, WalkFields f fields out ds →
      out = resolvedFields f fields ∧ ds = defectsFields fields
  | [], _, _, h => by
    cases h
    exact ⟨rfl, rfl⟩
  | (key, value) :: rest, _, _, h => by
    rw [resolvedFields, defectsFields]
    cases h with
    | known hvalue hrest =>
      obtain ⟨hknown, rfl⟩ := eq_of_walk value hvalue
      obtain ⟨rfl, rfl⟩ := eq_of_walkFields rest hrest
      rw [← hknown]
      exact ⟨rfl, rfl⟩
    | unset hvalue hrest =>
      obtain ⟨hunset, rfl⟩ := eq_of_walk value hvalue
      obtain ⟨rfl, rfl⟩ := eq_of_walkFields rest hrest
      rw [← hunset]
      exact ⟨rfl, rfl⟩

theorem eq_of_walkItems : ∀ (items : List Value) {out : List Value} {ds : List Defect},
    WalkItems f items out ds → out = resolvedItems f items ∧ ds = defectsItems items
  | [], _, _, h => by
    cases h
    exact ⟨rfl, rfl⟩
  | item :: rest, _, _, h => by
    rw [resolvedItems, defectsItems]
    cases h with
    | cons hitem hrest =>
      obtain ⟨rfl, rfl⟩ := eq_of_walk item hitem
      obtain ⟨rfl, rfl⟩ := eq_of_walkItems rest hrest
      exact ⟨rfl, rfl⟩

end

mutual

theorem Walk.hasExpression : ∀ {v : Value} {out : Option Value} {ds : List Defect},
    Walk f v out ds → (out.getD null).hasExpression = false
  | _, _, _, .scalar hscalar => hasExpression_of_isScalar hscalar
  | _, _, _, .given _ hwalk => hwalk.hasExpression
  | _, _, _, .unset _ => rfl
  | _, _, _, .object hfields => hfields.hasExpression
  | _, _, _, .array hitems => hitems.hasExpression

private theorem WalkFields.hasExpression :
    ∀ {fields out : List (String × Value)} {ds : List Defect},
    WalkFields f fields out ds → hasExpressionFields out = false
  | _, _, _, .nil => rfl
  | _, _, _, .known hvalue hrest =>
    Bool.or_eq_false_iff.mpr ⟨hvalue.hasExpression, hrest.hasExpression⟩
  | _, _, _, .unset _ hrest => hrest.hasExpression

theorem WalkItems.hasExpression : ∀ {items out : List Value} {ds : List Defect},
    WalkItems f items out ds → hasExpressionItems out = false
  | _, _, _, .nil => rfl
  | _, _, _, .cons hitem hrest =>
    Bool.or_eq_false_iff.mpr ⟨hitem.hasExpression, hrest.hasExpression⟩

end

mutual

theorem hasExpression_plain : ∀ v : Value, ((plain v).getD null).hasExpression = false
  | expression _ => rfl
  | object fields => hasExpression_plainFields fields
  | array items => hasExpression_plainItems items
  | null | bool _ | number _ | string _ => rfl

private theorem hasExpression_plainFields :
    ∀ fields : List (String × Value), hasExpressionFields (plainFields fields) = false
  | [] => rfl
  | (key, value) :: rest => by
    have hvalue := hasExpression_plain value
    have hrest := hasExpression_plainFields rest
    rw [plainFields]
    cases hplain : plain value with
    | none => exact hrest
    | some known =>
      rw [hplain] at hvalue
      exact Bool.or_eq_false_iff.mpr ⟨hvalue, hrest⟩

theorem hasExpression_plainItems :
    ∀ items : List Value, hasExpressionItems (plainItems items) = false
  | [] => rfl
  | item :: rest =>
    Bool.or_eq_false_iff.mpr ⟨hasExpression_plain item, hasExpression_plainItems rest⟩

end

theorem hasExpressionFields_eq_false_iff {fields : List (String × Value)} :
    hasExpressionFields fields = false ↔ ∀ entry ∈ fields, entry.2.hasExpression = false := by
  induction fields with
  | nil => simp [hasExpressionFields]
  | cons entry rest ih => simp [hasExpressionFields, ih]

end Value

namespace Tree

variable {f : Feature}

/-- A way through the fields of a root, in order. The syntax errors below a field are warned of
under its name. -/
inductive Walk (f : Feature) :
    List (String × Value) → List (String × Value) → List Warning → Prop
  | nil : Walk f [] [] []
  | known {field : String} {value result : Value} {rest out : List (String × Value)}
      {defects : List Defect} {warnings : List Warning}
      (hvalue : value.Walk f (some result) defects) (hrest : Walk f rest out warnings) :
      Walk f ((field, value) :: rest) ((field, result) :: out)
        (defects.map (Warning.brokenBranch field) ++ warnings)
  | unset {field : String} {value : Value} {rest out : List (String × Value)}
      {defects : List Defect} {warnings : List Warning} (hvalue : value.Walk f none defects)
      (hrest : Walk f rest out warnings) :
      Walk f ((field, value) :: rest) out
        (defects.map (Warning.brokenBranch field) ++ warnings)

theorem walk_resolved (f : Feature) (fields : List (String × Value)) :
    Walk f fields (Value.resolvedFields f fields) (brokenBranches fields) := by
  induction fields with
  | nil => exact .nil
  | cons entry rest ih =>
    obtain ⟨field, value⟩ := entry
    have hvalue := Value.walk_resolved f value
    rw [Value.resolvedFields]
    cases hresolved : Value.resolved? f value with
    | none =>
      rw [hresolved] at hvalue
      exact .unset hvalue ih
    | some result =>
      rw [hresolved] at hvalue
      exact .known hvalue ih

/-- There is exactly one way through a root, and it gives what resolution gives. -/
theorem walk_iff {fields out : List (String × Value)} {warnings : List Warning} :
    Walk f fields out warnings ↔
      out = Value.resolvedFields f fields ∧ warnings = brokenBranches fields := by
  constructor
  · intro h
    induction h with
    | nil => exact ⟨rfl, rfl⟩
    | known hvalue _ ih =>
      obtain ⟨hknown, rfl⟩ := Value.eq_of_walk _ hvalue
      obtain ⟨rfl, rfl⟩ := ih
      rw [Value.resolvedFields, ← hknown]
      exact ⟨rfl, rfl⟩
    | unset hvalue _ ih =>
      obtain ⟨hunset, rfl⟩ := Value.eq_of_walk _ hvalue
      obtain ⟨rfl, rfl⟩ := ih
      rw [Value.resolvedFields, ← hunset]
      exact ⟨rfl, rfl⟩
  · rintro ⟨rfl, rfl⟩
    exact walk_resolved f fields

private theorem hasExpression_fallback (layer : Tree) (limit : Nat) :
    Value.hasExpressionFields (layer.fallback limit) = false := by
  rw [fallback]
  split
  · rw [Value.hasExpressionFields_eq_false_iff]
    intro entry hentry
    exact Value.hasExpression_of_isScalar (List.mem_filter.mp hentry).2
  · exact Value.hasExpression_plainFields layer.fields

end Tree

theorem Outcome.hasExpression (limit : Nat) (layer tree : Tree) (feature : Feature) :
    Value.hasExpressionFields (Outcome.of limit layer tree feature).fields = false := by
  rw [Outcome.of]
  split
  · exact layer.hasExpression_fallback limit
  · exact (Value.walkFields_resolved feature tree.fields).hasExpression

end FeatureStyle
