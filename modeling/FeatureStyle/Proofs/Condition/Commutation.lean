import FeatureStyle.Condition.Evaluation

/-!
# The order of operands

Disjunctions may be turned round anywhere in a condition. A conjunction goes by its left side first: a
false left side hides an undefined right one, and not the other way round. So turning a conjunction
round makes a difference exactly if one side is undefined and the other one false, and the condition
around it tells these two apart. The main statement is `Condition.holds_turned`.
-/

namespace FeatureStyle
namespace Scalar

/-- On the left of a conjunction, `a` settles it before the undefined `b` is looked at. -/
def Hides (a b : Scalar) : Prop := a ≠ undefined ∧ a.toBool = false ∧ b = undefined

instance (a b : Scalar) : Decidable (a.Hides b) := inferInstanceAs (Decidable (_ ∧ _ ∧ _))

variable {a b : Scalar}

theorem disjunction_comm (a b : Scalar) : disjunction a b = disjunction b a := by
  simp only [disjunction, Bool.or_comm, or_comm]

@[simp] theorem toBool_conjunction (a b : Scalar) :
    (conjunction a b).toBool = (a.toBool && b.toBool) := by
  cases a with
  | undefined => rfl
  | _ =>
    rw [conjunction_eq, if_neg (by simp)]
    cases b <;> split <;> simp_all [toBool]

@[simp] theorem toBool_disjunction (a b : Scalar) :
    (disjunction a b).toBool = (a.toBool || b.toBool) := by
  rw [disjunction]
  split
  · simp_all [toBool]
  · split <;> simp_all [toBool]

private theorem conjunction_of_ne (ha : a ≠ undefined) (hb : b ≠ undefined) :
    conjunction a b = bool (a.toBool && b.toBool) := by
  rw [conjunction_eq, if_neg ha, if_neg hb]
  cases a.toBool <;> rfl

private theorem Hides.conjunction (h : a.Hides b) :
    conjunction a b = bool false ∧ conjunction b a = undefined := by
  obtain ⟨ha, hfalse, rfl⟩ := h
  rw [conjunction_eq a, if_neg ha, if_pos hfalse]
  exact ⟨rfl, rfl⟩

private theorem conjunction_undefined (ha : a ≠ undefined) (h : ¬ a.Hides undefined) :
    conjunction a undefined = undefined := by
  have htrue : a.toBool ≠ false := fun hfalse => h ⟨ha, hfalse, rfl⟩
  rw [conjunction_eq, if_neg ha, if_neg htrue, if_pos rfl]

theorem conjunction_comm (hab : ¬ a.Hides b) (hba : ¬ b.Hides a) :
    conjunction a b = conjunction b a := by
  by_cases ha : a = undefined <;> by_cases hb : b = undefined
  · rw [ha, hb]
  · subst ha
    exact (conjunction_undefined hb hba).symm
  · subst hb
    exact conjunction_undefined ha hab
  · rw [conjunction_of_ne ha hb, conjunction_of_ne hb ha, Bool.and_comm]

end Scalar

namespace Condition

inductive Connective
  | and
  | or
deriving DecidableEq

def Connective.operator : Connective → Operator
  | and => .and
  | or => .or

/-- A condition with places left open under negations, conjunctions and disjunctions. -/
inductive Context
  | hole
  | part (condition : Condition)
  | not (inner : Context)
  | join (connective : Connective) (lhs rhs : Context)

namespace Context

def fill (filling : Condition) : Context → Condition
  | hole => filling
  | part condition => condition
  | not inner => .not (inner.fill filling)
  | join connective lhs rhs =>
    .binary connective.operator (lhs.fill filling) (rhs.fill filling)

def IsPositive : Context → Prop
  | hole | part _ => True
  | not _ => False
  | join _ lhs rhs => lhs.IsPositive ∧ rhs.IsPositive

variable {a b : Condition} {f : Feature}

theorem value_fill (h : a.value f = b.value f) (context : Context) :
    (context.fill a).value f = (context.fill b).value f := by
  induction context with
  | hole => exact h
  | part condition => rfl
  | not inner ih => simp only [fill, value, ih]
  | join connective lhs rhs ihl ihr =>
    cases connective <;> simp only [fill, Connective.operator, value, ihl, ihr]

/-- Without a negation on the way, only whether the filling holds comes through. -/
theorem holds_fill (h : a.holds f = b.holds f) {context : Context} (hpositive : context.IsPositive) :
    (context.fill a).holds f = (context.fill b).holds f := by
  induction context with
  | hole => exact h
  | part condition => rfl
  | not inner ih => exact hpositive.elim
  | join connective lhs rhs ihl ihr =>
    have hl := ihl hpositive.1
    have hr := ihr hpositive.2
    simp only [holds] at hl hr
    cases connective <;> simp [fill, Connective.operator, holds, value, hl, hr]

/-- On a feature, the condition around the open places holds alike whether they are false or
undefined. -/
def Blurs (context : Context) (f : Feature) : Prop :=
  (context.fill (constant (.bool false))).holds f = (context.fill (constant .undefined)).holds f

private theorem IsPositive.blurs {context : Context} (h : context.IsPositive) (f : Feature) :
    context.Blurs f := by
  have hholds : (constant (.bool false)).holds f = (constant .undefined).holds f := rfl
  exact holds_fill hholds h

theorem holds_fill_hidden (h : (a.value f).Hides (b.value f)) (context : Context) :
    (context.fill (binary .and a b)).holds f = (context.fill (binary .and b a)).holds f ↔
      context.Blurs f := by
  have hab : (binary .and a b).value f = (constant (.bool false)).value f := h.conjunction.1
  have hba : (binary .and b a).value f = (constant .undefined).value f := h.conjunction.2
  simp only [Blurs, holds, value_fill hab, value_fill hba]

end Context

/-- Turning round the sides of a disjunction makes no difference to the condition around it. Turning
round those of a conjunction makes one exactly if one side is hidden behind the other and the
condition around it tells what is false from what is undefined, for which it needs a negation. -/
theorem holds_turned (a b : Condition) (f : Feature) (context : Context) :
    (context.fill (binary .or a b)).holds f = (context.fill (binary .or b a)).holds f ∧
    ((context.fill (binary .and a b)).holds f = (context.fill (binary .and b a)).holds f ↔
      ¬ (a.value f).Hides (b.value f) ∧ ¬ (b.value f).Hides (a.value f) ∨ context.Blurs f) ∧
    (context.IsPositive → context.Blurs f) := by
  refine ⟨?_, ?_, fun h => h.blurs f⟩
  · have hvalue : (binary .or a b).value f = (binary .or b a).value f := Scalar.disjunction_comm _ _
    rw [holds, holds, Context.value_fill hvalue]
  · by_cases hab : (a.value f).Hides (b.value f)
    · simp [hab, Context.holds_fill_hidden hab context]
    · by_cases hba : (b.value f).Hides (a.value f)
      · rw [eq_comm, Context.holds_fill_hidden hba context]
        simp [hba]
      · have hvalue : (binary .and a b).value f = (binary .and b a).value f :=
          Scalar.conjunction_comm hab hba
        simp [hab, hba, holds, Context.value_fill hvalue]

/-- A missing property in front of a false side and behind it: a disjunction around the conjunction
does not show which. -/
theorem holds_turned_missing :
    let f : Feature := .ofId ⟨"f"⟩
    let a : Condition := constant (.bool false)
    let b : Condition := property "missing"
    let context : Context := .join .or .hole (.part (constant (.bool true)))
    context.IsPositive ∧
      (context.fill (binary .and a b)).holds f = (context.fill (binary .and b a)).holds f := by
  intro f a b context
  have hpositive : context.IsPositive := ⟨trivial, trivial⟩
  obtain ⟨-, hturned, hblurs⟩ := holds_turned a b f context
  exact ⟨hpositive, hturned.mpr (.inr (hblurs hpositive))⟩

/-- A negated conjunction can hold one way round and not the other. -/
theorem negated_conjunction_not_symmetric :
    let f : Feature := .ofId ⟨"f"⟩
    let a : Condition := constant (.bool false)
    let b : Condition := property "missing"
    (not (binary .and a b)).holds f = true ∧ (not (binary .and b a)).holds f = false := by
  decide

end Condition
end FeatureStyle
