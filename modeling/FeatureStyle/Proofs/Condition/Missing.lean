import FeatureStyle.Condition.Evaluation

/-!
# Missing properties

A property that a feature lacks, or that is not scalar, is undefined in a condition. The main
statement is `value_of_extends`: what a condition evaluates to does not change when such properties
are given, unless it was undefined. So nothing holds because a property is missing: a condition that
holds goes on to hold whatever the missing properties may be.
-/

namespace FeatureStyle

/-- Every scalar property of `f` is a property of `g` with the same value. -/
def Feature.Extends (g f : Feature) : Prop :=
  ∀ name v, f.scalar? name = some v → g.scalar? name = some v

namespace Scalar

/-- What is undefined may become anything; what is defined stays. -/
def Below (a b : Scalar) : Prop := a = undefined ∨ b = a

variable {a a' b b' : Scalar}

private theorem undefined_below (b : Scalar) : undefined.Below b := .inl rfl

theorem Below.refl (a : Scalar) : a.Below a := .inr rfl

theorem Below.map {operator : Scalar → Scalar} (hoperator : operator undefined = undefined)
    (h : a.Below a') : (operator a).Below (operator a') := by
  rcases h with rfl | rfl
  · rw [hoperator]
    exact undefined_below _
  · exact .refl _

private theorem comparison_undefined (op : Operator) (a : Scalar) :
    comparison op a undefined = undefined := by
  cases a <;> rfl

private theorem Below.comparison (op : Operator) (ha : a.Below a') (hb : b.Below b') :
    (comparison op a b).Below (comparison op a' b') := by
  rcases ha with rfl | rfl
  · exact undefined_below _
  · rcases hb with rfl | rfl
    · rw [comparison_undefined]
      exact undefined_below _
    · exact .refl _

theorem Below.conjunction (ha : a.Below a') (hb : b.Below b') :
    (conjunction a b).Below (conjunction a' b') := by
  rcases ha with rfl | rfl
  · exact undefined_below _
  · rcases hb with rfl | rfl
    · rw [conjunction_eq, conjunction_eq]
      by_cases hundefined : a' = undefined
      · rw [if_pos hundefined]
        exact undefined_below _
      · rw [if_neg hundefined, if_neg hundefined]
        by_cases hfalse : a'.toBool = false
        · rw [if_pos hfalse, if_pos hfalse]
          exact .refl _
        · rw [if_neg hfalse, if_pos rfl]
          exact undefined_below _
    · exact .refl _

private theorem Below.toBool (h : a.Below a') (htrue : a.toBool = true) : a'.toBool = true := by
  rcases h with rfl | rfl
  · cases htrue
  · exact htrue

theorem Below.disjunction (ha : a.Below a') (hb : b.Below b') :
    (disjunction a b).Below (disjunction a' b') := by
  by_cases htrue : (a.toBool || b.toBool) = true
  · have htrue' : (a'.toBool || b'.toBool) = true := by
      rw [Bool.or_eq_true] at htrue ⊢
      exact htrue.imp ha.toBool hb.toBool
    rw [Scalar.disjunction, if_pos htrue, Scalar.disjunction, if_pos htrue']
    exact .refl _
  · rcases ha with rfl | rfl
    · rw [Scalar.disjunction, if_neg htrue, if_pos (.inl rfl)]
      exact undefined_below _
    · rcases hb with rfl | rfl
      · rw [Scalar.disjunction, if_neg htrue, if_pos (.inr rfl)]
        exact undefined_below _
      · exact .refl _

end Scalar

namespace Condition

variable {f g : Feature}

/-- By induction on the condition: each operator keeps the order, and a property that the first
feature lacks is undefined there. -/
theorem below_value (h : g.Extends f) (c : Condition) : (c.value f).Below (c.value g) := by
  induction c with
  | constant a => exact .refl a
  | property name =>
    rw [value_property, value_property]
    cases hscalar : f.scalar? name with
    | none => exact Scalar.undefined_below _
    | some v =>
      rw [h name v hscalar]
      exact .refl _
  | not part ih => exact ih.map rfl
  | minus part ih => exact ih.map rfl
  | binary op lhs rhs ihl ihr =>
    cases op with
    | and => exact ihl.conjunction ihr
    | or => exact ihl.disjunction ihr
    | _ => exact ihl.comparison _ ihr

/-- Properties that were missing or not scalar change nothing in a condition that was not undefined,
and so do not undo a condition that holds. -/
theorem value_of_extends (h : g.Extends f) (c : Condition) :
    (c.value f ≠ .undefined → c.value g = c.value f) ∧ (c.holds f = true → c.holds g = true) := by
  have hbelow := below_value h c
  exact ⟨hbelow.resolve_left, hbelow.toBool⟩

/-- A feature whose `kind` is no scalar and which lacks `open`, and one that has both: a disjunction
with `kind` on its left holds for both, by its right side. -/
theorem value_of_extends_road :
    let f : Feature := ⟨⟨"f"⟩, [("kind", .array []), ("width", .number .one)]⟩
    let g : Feature := ⟨⟨"g"⟩, [("kind", .string "road"), ("open", .null), ("width", .number .one)]⟩
    let c : Condition := .binary .or (.binary .eq (.property "kind") (.constant (.string "rail")))
      (.binary .gt (.property "width") (.constant (.number .zero)))
    g.Extends f ∧ c.value f ≠ .undefined ∧ c.value g = c.value f ∧
      c.holds f = true ∧ c.holds g = true := by
  intro f g c
  have hextends : g.Extends f := by
    intro name v hscalar
    by_cases hkind : name = "kind"
    · subst hkind
      cases hscalar
    · by_cases hwidth : name = "width"
      · subst hwidth
        exact hscalar
      · have hlacks : f.get? name = none := by
          simp [f, Feature.get?, Fields.get?, Table.get?_cons, Ne.symm hkind, Ne.symm hwidth]
        rw [Feature.scalar?, hlacks] at hscalar
        cases hscalar
  have hvalue : c.value f ≠ .undefined := by decide
  have hholds : c.holds f = true := by decide
  have h := value_of_extends hextends c
  exact ⟨hextends, hvalue, h.1 hvalue, hholds, h.2 hholds⟩

end Condition
end FeatureStyle
