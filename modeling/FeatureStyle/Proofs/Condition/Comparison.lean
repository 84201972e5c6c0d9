import FeatureStyle.Condition.Evaluation

/-!
# Comparisons agree with one another

Equality is exact for texts and for booleans and numeric for the rest, and it agrees with the order:
of any two conditions at most one of less, equal and greater holds, turned round they are the opposite
comparisons, and the others are put together from these. Only two nulls are equal without being
ordered. The main statement is `Condition.coherent`.
-/

namespace FeatureStyle

@[simp] theorem Double.compare?_swap (x y : Double) :
    (x.compare? y).map Ordering.swap = y.compare? x := by
  rw [compare?, compare?, Bool.or_comm]
  split
  · rfl
  · rw [Option.map_some, ← Std.OrientedCmp.eq_swap]

theorem Double.beq_eq_true_iff {x y : Double} : (x == y) = true ↔ x.compare? y = some .eq := by
  show x.beq y = true ↔ _
  cases hx : x.isNaN <;> cases hy : y.isNaN <;>
    simp [Double.beq, Double.compare?, hx, hy]

namespace Scalar

/-- Equality by kinds: texts and booleans are equal if they are the same, null is equal to null, and
everything else is equal if it stands for equal numbers. -/
def SameByKind : Scalar → Scalar → Prop
  | null, null => True
  | string s, string t => s = t
  | bool a, bool b => a = b
  | a, b => ∃ x y, a.number? = some x ∧ b.number? = some y ∧ (x == y) = true

@[simp] theorem order?_swap (a b : Scalar) : (order? a b).map Ordering.swap = order? b a := by
  have hnumbers : ∀ a b : Scalar,
      (do (← a.number?).compare? (← b.number?)).map Ordering.swap =
        (do (← b.number?).compare? (← a.number?)) := by
    intro a b
    cases a.number? <;> cases b.number? <;> simp
  cases a <;> cases b
  case string.string s t => exact congrArg some Std.OrientedCmp.eq_swap.symm
  all_goals exact hnumbers _ _

theorem order?_eq_swap {a b : Scalar} {o : Ordering} :
    order? a b = some o ↔ order? b a = some o.swap := by
  rw [← order?_swap a b]
  cases order? a b with
  | none => simp
  | some p => cases p <;> cases o <;> simp

theorem equates_iff {a b : Scalar} :
    equates a b = true ↔ (a = null ∧ b = null) ∨ order? a b = some .eq := by
  simp [equates]

theorem equates_iff_sameByKind {a b : Scalar} : equates a b = true ↔ SameByKind a b := by
  rw [equates_iff]
  have hnumbers : ∀ a b : Scalar, (do (← a.number?).compare? (← b.number?)) = some Ordering.eq ↔
      ∃ x y, a.number? = some x ∧ b.number? = some y ∧ (x == y) = true := by
    intro a b
    cases a.number? <;> cases b.number? <;> simp [Double.beq_eq_true_iff]
  cases a <;> cases b
  case null.null => simp [SameByKind]
  case string.string s t => simp [SameByKind, order?]
  case bool.bool a b => cases a <;> cases b <;> simp [SameByKind] <;> decide
  all_goals
    simp only [reduceCtorEq, and_false, false_and, false_or]
    exact hnumbers _ _

private theorem ne_null_of_order? {a b : Scalar} {o : Ordering} (h : order? a b = some o) :
    a ≠ null := by
  rintro rfl
  cases b <;> cases h

private theorem ne_undefined_of_order? {a b : Scalar} {o : Ordering} (h : order? a b = some o) :
    a ≠ undefined ∧ b ≠ undefined := by
  constructor
  · rintro rfl
    cases h
  · rintro rfl
    cases a <;> simp [order?, number?] at h

private theorem ne_undefined_of_equates {a b : Scalar} (h : equates a b = true) :
    a ≠ undefined ∧ b ≠ undefined := by
  rcases equates_iff.mp h with ⟨rfl, rfl⟩ | h
  · exact ⟨by simp, by simp⟩
  · exact ne_undefined_of_order? h

private theorem toBool_comparison {op : Operator} {a b : Scalar} :
    (comparison op a b).toBool = true ↔
      (a ≠ undefined ∧ b ≠ undefined) ∧ compareBy op a b = true := by
  cases a <;> cases b <;> simp [comparison, toBool]

theorem toBool_comparison_of_defined {op : Operator} {a b : Scalar}
    (h : compareBy op a b = true → a ≠ undefined ∧ b ≠ undefined) :
    (comparison op a b).toBool = true ↔ compareBy op a b = true := by
  rw [toBool_comparison]
  exact and_iff_right_of_imp h

theorem toBool_comparison_of_order {a b : Scalar} (op : Operator) (orders : List Ordering)
    (h : compareBy op a b = true ↔ ∃ o ∈ orders, order? a b = some o) :
    (comparison op a b).toBool = true ↔ ∃ o ∈ orders, order? a b = some o := by
  rw [← h]
  apply toBool_comparison_of_defined
  intro hby
  obtain ⟨o, -, horder⟩ := h.mp hby
  exact ne_undefined_of_order? horder

end Scalar

namespace Condition

open Scalar

section Holding

variable {a b : Condition} {f : Feature}

private theorem holds_lt :
    (binary .lt a b).holds f = true ↔ order? (a.value f) (b.value f) = some .lt := by
  simpa [holds, value] using toBool_comparison_of_order .lt [.lt] (by simp [compareBy])

private theorem holds_gt :
    (binary .gt a b).holds f = true ↔ order? (a.value f) (b.value f) = some .gt := by
  simpa [holds, value] using toBool_comparison_of_order .gt [.gt] (by simp [compareBy])

private theorem holds_le :
    (binary .le a b).holds f = true ↔
      order? (a.value f) (b.value f) = some .lt ∨ order? (a.value f) (b.value f) = some .eq := by
  simpa [holds, value] using toBool_comparison_of_order .le [.lt, .eq] (by simp [compareBy])

private theorem holds_ge :
    (binary .ge a b).holds f = true ↔
      order? (a.value f) (b.value f) = some .gt ∨ order? (a.value f) (b.value f) = some .eq := by
  simpa [holds, value] using toBool_comparison_of_order .ge [.gt, .eq] (by simp [compareBy])

private theorem holds_eq :
    (binary .eq a b).holds f = true ↔
      (a.value f = .null ∧ b.value f = .null) ∨ order? (a.value f) (b.value f) = some .eq := by
  rw [← equates_iff]
  exact toBool_comparison_of_defined ne_undefined_of_equates

private theorem holds_ne :
    (binary .ne a b).holds f = true ↔
      (a.value f ≠ .undefined ∧ b.value f ≠ .undefined) ∧ ¬ (binary .eq a b).holds f = true := by
  rw [holds_eq, ← equates_iff, Bool.not_eq_true, ← Bool.not_eq_true']
  exact toBool_comparison

end Holding

/-- What the comparisons of two conditions have to do with one another on a feature. -/
structure Coherent (a b : Condition) (f : Feature) : Prop where
  eq_iff : (binary .eq a b).holds f = true ↔ SameByKind (a.value f) (b.value f)
  lt_turned : (binary .lt a b).holds f = (binary .gt b a).holds f
  le_turned : (binary .le a b).holds f = (binary .ge b a).holds f
  eq_turned : (binary .eq a b).holds f = (binary .eq b a).holds f
  not_lt_and_eq : ¬ ((binary .lt a b).holds f = true ∧ (binary .eq a b).holds f = true)
  not_lt_and_gt : ¬ ((binary .lt a b).holds f = true ∧ (binary .gt a b).holds f = true)
  not_eq_and_gt : ¬ ((binary .eq a b).holds f = true ∧ (binary .gt a b).holds f = true)
  /-- Null is equal to itself, and yet not at most itself. -/
  le_iff : (binary .le a b).holds f = true ↔
    ((binary .lt a b).holds f = true ∨ (binary .eq a b).holds f = true) ∧
      ¬ (a.value f = .null ∧ b.value f = .null)
  ne_iff : (binary .ne a b).holds f = true ↔
    (a.value f ≠ .undefined ∧ b.value f ≠ .undefined) ∧ ¬ (binary .eq a b).holds f = true

/-- Any two conditions are compared coherently on any feature. -/
theorem coherent (a b : Condition) (f : Feature) : a.Coherent b f where
  eq_iff := by rw [holds_eq, ← equates_iff, equates_iff_sameByKind]
  lt_turned := by
    rw [Bool.eq_iff_iff, holds_lt, holds_gt]
    exact order?_eq_swap
  le_turned := by
    rw [Bool.eq_iff_iff, holds_le, holds_ge]
    exact or_congr order?_eq_swap order?_eq_swap
  eq_turned := by
    rw [Bool.eq_iff_iff, holds_eq, holds_eq]
    exact or_congr and_comm order?_eq_swap
  not_lt_and_eq := by
    rw [holds_lt, holds_eq]
    rintro ⟨hlt, ⟨ha, -⟩ | heq⟩
    · exact ne_null_of_order? hlt ha
    · simp [heq] at hlt
  not_lt_and_gt := by
    rw [holds_lt, holds_gt]
    rintro ⟨hlt, hgt⟩
    simp [hlt] at hgt
  not_eq_and_gt := by
    rw [holds_eq, holds_gt]
    rintro ⟨⟨ha, -⟩ | heq, hgt⟩
    · exact ne_null_of_order? hgt ha
    · simp [heq] at hgt
  le_iff := by
    rw [holds_le, holds_lt, holds_eq]
    constructor
    · rintro (hlt | heq)
      · exact ⟨.inl hlt, fun h => ne_null_of_order? hlt h.1⟩
      · exact ⟨.inr (.inr heq), fun h => ne_null_of_order? heq h.1⟩
    · rintro ⟨hlt | hnulls | heq, hne⟩
      · exact .inl hlt
      · exact absurd hnulls hne
      · exact .inr heq
  ne_iff := holds_ne

end Condition
end FeatureStyle
