import FeatureStyle.Proofs.Pipeline.Outcome
import FeatureStyle.Proofs.Value.Alike

/-!
# Alike inputs have alike outcomes

Nothing that resolving does tells the zeros apart, or one value that is not a number from another:
what trees and features in canonical form resolve to has the canonical form of what the trees and
features themselves resolve to.
-/

namespace FeatureStyle

namespace Double

private theorem text_of_isZero {x : Double} (h : x.isZero = true) : x.text = "0" := by
  have hinfinite : x.isInfinite = false := by
    rw [isInfinite, decide_eq_true_iff.mp h]
    decide
  rw [text, isNaN_of_isZero h, hinfinite]
  simp only [NumeralStyle.text, h, NumeralStyle.plain, Bool.false_eq_true, ↓reduceIte,
    Bool.not_true, Bool.or_self, Bool.and_false]
  rfl

private theorem text_of_isNaN {x : Double} (h : x.isNaN = true) : x.text = "NaN" := if_pos h

@[simp] theorem text_canonical (x : Double) : x.canonical.text = x.text := by
  cases hzero : x.isZero with
  | true => rw [canonical_eq_zero.mpr hzero, text_of_isZero hzero, text_of_isZero rfl]
  | false =>
    cases hnan : x.isNaN with
    | true => rw [canonical_eq_nan.mpr hnan, text_of_isNaN hnan, text_of_isNaN rfl]
    | false => rw [canonical_of_ne hzero hnan]

private theorem bind_compare?_congr {a a' b b' : Option Double}
    (ha : a.map canonical = a'.map canonical) (hb : b.map canonical = b'.map canonical) :
    (a.bind fun x => b.bind fun y => x.compare? y) =
      a'.bind fun x => b'.bind fun y => x.compare? y := by
  cases a with
  | none =>
    rw [Option.map_eq_none_iff.mp ha.symm]
    rfl
  | some x =>
    obtain ⟨x', rfl, hx⟩ := Option.map_eq_some_iff.mp ha.symm
    cases b with
    | none =>
      rw [Option.map_eq_none_iff.mp hb.symm]
      rfl
    | some y =>
      obtain ⟨y', rfl, hy⟩ := Option.map_eq_some_iff.mp hb.symm
      simp only [Option.bind_some]
      rw [← compare?_canonical, ← hx, ← hy, compare?_canonical]

end Double

namespace Scalar

def canonical : Scalar → Scalar
  | number x => number x.canonical
  | a => a

private theorem toBool_canonical (a : Scalar) : a.canonical.toBool = a.toBool := by
  cases a with
  | number x => simp [canonical, toBool]
  | _ => rfl

private theorem number?_canonical (a : Scalar) :
    (a.canonical.number?).map Double.canonical = a.number?.map Double.canonical := by
  cases a with
  | number x => simp [canonical, number?]
  | _ => rfl

private theorem canonical_eq_undefined (a : Scalar) : a.canonical = undefined ↔ a = undefined := by
  cases a <;> simp [canonical]

private theorem order?_canonical (a b : Scalar) : order? a.canonical b.canonical = order? a b := by
  have hnumbers := Double.bind_compare?_congr (number?_canonical a) (number?_canonical b)
  cases a with
  | string s =>
    cases b with
    | string t => rfl
    | _ => exact hnumbers
  | _ => exact hnumbers

private theorem equates_canonical (a b : Scalar) :
    equates a.canonical b.canonical = equates a b := by
  have hnull : ∀ c : Scalar, c.canonical = null ↔ c = null := by
    intro c
    cases c <;> simp [canonical]
  rw [equates, equates, order?_canonical]
  simp only [hnull]

private theorem compareBy_canonical (op : Operator) (a b : Scalar) :
    compareBy op a.canonical b.canonical = compareBy op a b := by
  cases op <;> simp only [compareBy, equates_canonical, order?_canonical]

private theorem comparison_canonical (op : Operator) (a b : Scalar) :
    comparison op a.canonical b.canonical = comparison op a b := by
  have hcompare := congrArg bool (compareBy_canonical op a b)
  cases a with
  | undefined => rfl
  | _ =>
    cases b with
    | undefined => rfl
    | _ => exact hcompare

private theorem conjunction_canonical (a b : Scalar) :
    conjunction a.canonical b.canonical = conjunction a b := by
  simp only [conjunction_eq, toBool_canonical, canonical_eq_undefined]

private theorem disjunction_canonical (a b : Scalar) :
    disjunction a.canonical b.canonical = disjunction a b := by
  rw [disjunction, disjunction, toBool_canonical, toBool_canonical]
  simp only [canonical_eq_undefined]

private theorem negation_canonical (a : Scalar) : negation a.canonical = negation a := by
  have ha := congrArg (fun b => bool !b) (toBool_canonical a)
  cases a with
  | undefined => rfl
  | _ => exact ha

private theorem canonical_opposite (a : Scalar) :
    (opposite a.canonical).canonical = (opposite a).canonical := by
  cases a with
  | number x => exact congrArg number (Double.canonical_neg x)
  | _ => rfl

private theorem ofValue?_canonical (v : Option Value) :
    ofValue? (v.map Value.canonical) = (ofValue? v).canonical := by
  cases v with
  | none => rfl
  | some v =>
    cases v with
    | expression e => cases e <;> rfl
    | _ => rfl

end Scalar

namespace Feature

def canonical (f : Feature) : Feature := ⟨f.id, Value.canonicalFields f.properties⟩

private theorem get?_canonical (f : Feature) (name : String) :
    f.canonical.get? name = (f.get? name).map Value.canonical :=
  Value.get?_canonicalFields f.properties name

private theorem scalar?_canonical (f : Feature) (name : String) :
    f.canonical.scalar? name = (f.scalar? name).map Value.canonical := by
  rw [scalar?, scalar?, get?_canonical]
  cases f.get? name with
  | none => rfl
  | some v =>
    simp only [Option.map_some, Option.filter_some, Value.isScalar_canonical]
    split <;> rfl

end Feature

namespace Condition

/-- A part of a condition has the same canonical form on a feature in canonical form. -/
theorem value_canonical (f : Feature) (c : Condition) :
    (c.value f.canonical).canonical = (c.value f).canonical := by
  induction c with
  | constant a => rfl
  | property name =>
    rw [value, value, Feature.get?_canonical, Scalar.ofValue?_canonical]
    cases Scalar.ofValue? (f.get? name) with
    | number x => exact congrArg Scalar.number (Double.canonical_canonical x)
    | _ => rfl
  | not part ih =>
    rw [value, value, ← Scalar.negation_canonical, ih, Scalar.negation_canonical]
  | minus part ih =>
    rw [value, value, ← Scalar.canonical_opposite, ih, Scalar.canonical_opposite]
  | binary op lhs rhs ihl ihr =>
    cases op with
    | and =>
      rw [value, value, ← Scalar.conjunction_canonical, ihl, ihr, Scalar.conjunction_canonical]
    | or =>
      rw [value, value, ← Scalar.disjunction_canonical, ihl, ihr, Scalar.disjunction_canonical]
    | _ =>
      simp only [value]
      rw [← Scalar.comparison_canonical, ihl, ihr, Scalar.comparison_canonical]

private theorem holds_canonical (c : Condition) (f : Feature) :
    c.holds f.canonical = c.holds f := by
  rw [holds, holds, ← Scalar.toBool_canonical, value_canonical, Scalar.toBool_canonical]

end Condition

private theorem Value.text_canonical {v : Value} (h : v.isScalar = true) :
    v.canonical.text = v.text := by
  cases v with
  | number x => exact Double.text_canonical x
  | null | bool _ | string _ => rfl
  | object _ | array _ | expression _ => cases h

namespace Template

private theorem substitute_canonical (f : Feature) (part : TemplatePart) :
    substitute f.canonical part = substitute f part := by
  cases part with
  | text s => rfl
  | property name =>
    rw [substitute, substitute, Feature.scalar?_canonical]
    cases hscalar : f.scalar? name with
    | none => rfl
    | some v =>
      have hv : v.isScalar = true := (Option.filter_eq_some_iff.mp hscalar).2
      exact Value.text_canonical hv

/-- A template gives the same for a feature in canonical form, except for the form of a number that
is itself a property. -/
theorem canonical_render (t : Template) (f : Feature) :
    (t.render f.canonical).canonical = (t.render f).canonical := by
  rcases t with _ | ⟨part, _ | ⟨second, rest⟩⟩
  · rfl
  · cases part with
    | text s => rfl
    | property name =>
      simp only [render, Feature.scalar?_canonical]
      cases hscalar : f.scalar? name with
      | none => rfl
      | some v =>
        have hv : v.isScalar = true := (Option.filter_eq_some_iff.mp hscalar).2
        cases v with
        | number x => exact congrArg Value.number (Double.canonical_canonical x)
        | null | bool _ | string _ => rfl
        | object _ | array _ | expression _ => cases hv
  · have hparts : (part :: second :: rest).map (substitute f.canonical) =
        (part :: second :: rest).map (substitute f) :=
      List.map_congr_left fun part _ => substitute_canonical f part
    rw [render, render, hparts]
    · exact fun _ h => by cases h
    · exact fun _ h => by cases h

end Template

private theorem ParsedBranch.holds_canonical (branch : ParsedBranch) (f : Feature) :
    branch.holds f.canonical = branch.holds f := by
  rw [holds, holds]
  split
  next condition h =>
    exact Condition.holds_canonical condition f
  next h => rfl

private theorem Choice.canonical_evaluate (choice : Choice) (f : Feature) :
    (choice.evaluate f.canonical).map Value.canonical =
      (choice.evaluate f).map Value.canonical := by
  rw [evaluate, evaluate, Option.map_map, Option.map_map]
  simp only [ParsedBranch.holds_canonical]
  cases choice.find? fun branch => branch.holds f with
  | none => rfl
  | some branch => exact congrArg some (Template.canonical_render branch.result f)

namespace Value

mutual

theorem canonical_resolved? (f : Feature) : ∀ v : Value,
    (resolved? f.canonical v.canonical).map canonical = (resolved? f v).map canonical
  | expression (.constant value) => by
    rw [canonical, resolved?, resolved?, canonical_resolved? f value]
  | expression (.conditions branches) =>
    Choice.canonical_evaluate (Choice.ofBranches branches) f
  | object fields => by
    simp only [canonical, resolved?, Option.map_some, canonicalFields_resolvedFields f fields]
  | array items => by
    simp only [canonical, resolved?, Option.map_some, canonicalItems_resolvedItems f items]
  | number x => by
    simp only [canonical, resolved?, Option.map_some, Double.canonical_canonical]
  | null | bool _ | string _ => rfl

private theorem canonicalFields_resolvedFields (f : Feature) : ∀ fields : List (String × Value),
    canonicalFields (resolvedFields f.canonical (canonicalFields fields)) =
      canonicalFields (resolvedFields f fields)
  | [] => rfl
  | (key, value) :: rest => by
    have hvalue := canonical_resolved? f value
    have hrest := canonicalFields_resolvedFields f rest
    rw [canonicalFields, resolvedFields, resolvedFields]
    cases h : resolved? f value with
    | none =>
      rw [h, Option.map_none, Option.map_eq_none_iff] at hvalue
      simp only [hvalue, hrest]
    | some known =>
      rw [h] at hvalue
      obtain ⟨other, hother, hknown⟩ := Option.map_eq_some_iff.mp hvalue
      simp only [hother, canonicalFields, hknown, hrest]

theorem canonicalItems_resolvedItems (f : Feature) : ∀ items : List Value,
    canonicalItems (resolvedItems f.canonical (canonicalItems items)) =
      canonicalItems (resolvedItems f items)
  | [] => rfl
  | item :: rest => by
    have hitem := canonical_resolved? f item
    have hrest := canonicalItems_resolvedItems f rest
    simp only [canonicalItems, resolvedItems, hrest]
    congr 1
    cases h : resolved? f item with
    | none =>
      rw [h, Option.map_none, Option.map_eq_none_iff] at hitem
      rw [hitem]
    | some known =>
      rw [h] at hitem
      obtain ⟨other, hother, hknown⟩ := Option.map_eq_some_iff.mp hitem
      rw [hother]
      exact hknown

end

mutual

private theorem defects_canonical : ∀ v : Value, v.canonical.defects = v.defects
  | expression (.constant value) => by rw [canonical, defects, defects, defects_canonical value]
  | object fields => by rw [canonical, defects, defects, defectsFields_canonicalFields fields]
  | array items => by rw [canonical, defects, defects, defectsItems_canonicalItems items]
  | expression (.conditions _) | null | bool _ | number _ | string _ => rfl

theorem defectsFields_canonicalFields : ∀ fields : List (String × Value),
    defectsFields (canonicalFields fields) = defectsFields fields
  | [] => rfl
  | (_, value) :: rest => by
    rw [canonicalFields, defectsFields, defectsFields, defects_canonical value,
      defectsFields_canonicalFields rest]

theorem defectsItems_canonicalItems : ∀ items : List Value,
    defectsItems (canonicalItems items) = defectsItems items
  | [] => rfl
  | item :: rest => by
    rw [canonicalItems, defectsItems, defectsItems, defects_canonical item,
      defectsItems_canonicalItems rest]

end

end Value
private theorem Tree.brokenBranches_canonicalFields (fields : List (String × Value)) :
    brokenBranches (Value.canonicalFields fields) = brokenBranches fields := by
  rw [brokenBranches, brokenBranches, Value.canonicalFields_eq_map, List.flatMap_map]
  simp only [Value.defects_canonical]

theorem Tree.canonicalFields_eq_of_beq {a b : Tree} (h : (a == b) = true) :
    Value.canonicalFields a.fields = Value.canonicalFields b.fields :=
  (Value.alikeFields_iff _ _).mp (Value.alikeFields_of_beq a.fields b.fields h)

theorem Feature.eq_of_beq {a b : Feature} (h : (a == b) = true) :
    a.id = b.id ∧ a.canonical = b.canonical := by
  have h : (a.id == b.id && Value.object a.properties == Value.object b.properties) = true := h
  rw [Bool.and_eq_true, beq_iff_eq] at h
  have hproperties : Value.canonicalFields a.properties = Value.canonicalFields b.properties :=
    (Value.alikeFields_iff _ _).mp (Value.alikeFields_of_beq a.properties b.properties h.2)
  rw [canonical, canonical, h.1, hproperties]
  exact ⟨rfl, rfl⟩

theorem Tree.depth_eq {a b : Tree}
    (h : Value.canonicalFields a.fields = Value.canonicalFields b.fields) : a.depth = b.depth := by
  rw [depth, depth, toValue, toValue, ← Value.depth_canonical, ← Value.depth_canonical (.object _),
    Value.canonical, Value.canonical, h]

namespace Outcome

theorem canonicalFields_parts {o o' : Outcome}
    (h : Value.canonicalFields o.fields = Value.canonicalFields o'.fields) :
    Value.canonicalFields o.static = Value.canonicalFields o'.static ∧
      Value.canonicalFields o.timed = Value.canonicalFields o'.timed := by
  have hstatic := Value.canonicalFields_filter (fun v => !v.isTimed)
    (fun v => by rw [Value.isTimed_canonical])
  have htimed := Value.canonicalFields_filter Value.isTimed Value.isTimed_canonical
  simp only [static, timed]
  exact ⟨by rw [hstatic, hstatic, h], by rw [htimed, htimed, h]⟩

variable {limit : Nat} {layer layer' tree tree' : Tree} {feature feature' : Feature}

/-- Alike trees and features give the same warnings, and alike fields unless they are degraded. -/
theorem of_alike (limit : Nat) (layer layer' : Tree)
    (htree : Value.canonicalFields tree.fields = Value.canonicalFields tree'.fields)
    (hfeature : feature.canonical = feature'.canonical) :
    (of limit layer tree feature).warnings = (of limit layer' tree' feature').warnings ∧
      (¬ limit < tree.depth →
        Value.canonicalFields (of limit layer tree feature).fields =
          Value.canonicalFields (of limit layer' tree' feature').fields) := by
  have hdepth := Tree.depth_eq htree
  by_cases h : limit < tree.depth
  · have h' := h
    rw [hdepth] at h'
    rw [of_degraded h, of_degraded h', hdepth]
    exact ⟨rfl, fun hn => absurd h (by rwa [hdepth])⟩
  · have h' := h
    rw [hdepth] at h'
    rw [of_evaluated h, of_evaluated h']
    constructor
    · rw [← Tree.brokenBranches_canonicalFields, htree, Tree.brokenBranches_canonicalFields]
    · intro _
      rw [← Value.canonicalFields_resolvedFields, htree, hfeature,
        Value.canonicalFields_resolvedFields]

end Outcome
end FeatureStyle
