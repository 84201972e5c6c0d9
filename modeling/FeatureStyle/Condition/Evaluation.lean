import FeatureStyle.Condition.Basic
import FeatureStyle.Numeral.Scan
import FeatureStyle.Feature

/-!
# Evaluating conditions

A condition is evaluated on a feature. A property that the feature lacks, or that is not scalar, is
undefined. Undefined parts make comparisons and negations undefined, and a condition that is
undefined does not hold. So a missing property never makes a condition hold.

Two texts are compared as texts. Every other pair is compared by number, where a boolean counts as
zero or one and a text as the number it spells. Null stands for no number: it equals null only and
has no order.
-/

namespace FeatureStyle
namespace Scalar

/-- What the value of a property counts as in a condition. -/
def ofValue? : Option Value → Scalar
  | some .null => null
  | some (.bool b) => bool b
  | some (.number x) => number x
  | some (.string s) => string s
  | some (.object _) | some (.array _) | some (.expression _) | none => undefined

/-- Whether a scalar counts as true. -/
def toBool : Scalar → Bool
  | undefined | null => false
  | bool b => b
  | number x => !x.isZero && !x.isNaN
  | string s => !s.isEmpty

def number? : Scalar → Option Double
  | number x => some x
  | bool b => some (if b then .one else .zero)
  | string s => Double.ofText? s
  | undefined | null => none

/-- The order of two scalars; none if they cannot be ordered. -/
def order? : Scalar → Scalar → Option Ordering
  | string s, string t => some (compare s t)
  | a, b => do (← a.number?).compare? (← b.number?)

def equates (a b : Scalar) : Bool := (a = null && b = null) || order? a b == some .eq

/-- Whether a comparison holds of two scalars that are not undefined. -/
def compareBy (op : Operator) (a b : Scalar) : Bool :=
  match op with
  | .eq => equates a b
  | .ne => !equates a b
  | .lt => order? a b == some .lt
  | .le => order? a b == some .lt || order? a b == some .eq
  | .gt => order? a b == some .gt
  | .ge => order? a b == some .gt || order? a b == some .eq
  | .or | .and => false

/-- The value of a comparison; undefined if one side is. -/
def comparison (op : Operator) : Scalar → Scalar → Scalar
  | undefined, _ | _, undefined => undefined
  | a, b => bool (compareBy op a b)

/-- The value of a conjunction. An undefined side makes it undefined, unless the left one is false. -/
def conjunction : Scalar → Scalar → Scalar
  | undefined, _ => undefined
  | a, b =>
    if !a.toBool then bool false
    else
      match b with
      | undefined => undefined
      | b => bool b.toBool

theorem conjunction_eq (a b : Scalar) :
    conjunction a b =
      if a = undefined then undefined
      else if a.toBool = false then bool false
      else if b = undefined then undefined
      else bool b.toBool := by
  cases a with
  | undefined => rfl
  | _ => cases b <;> simp [conjunction]

/-- The value of a disjunction. It holds if one side does, and is otherwise undefined if one side
is. -/
def disjunction (a b : Scalar) : Scalar :=
  if a.toBool || b.toBool then bool true
  else if a = undefined ∨ b = undefined then undefined
  else bool false

def negation : Scalar → Scalar
  | undefined => undefined
  | a => bool !a.toBool

def opposite (a : Scalar) : Scalar :=
  match a.number? with
  | some x => number (-x)
  | none => undefined

end Scalar

namespace Condition

/-- What a condition evaluates to on a feature. -/
def value (f : Feature) : Condition → Scalar
  | constant a => a
  | property name => Scalar.ofValue? (f.get? name)
  | not part => (part.value f).negation
  | minus part => (part.value f).opposite
  | binary .and lhs rhs => (lhs.value f).conjunction (rhs.value f)
  | binary .or lhs rhs => (lhs.value f).disjunction (rhs.value f)
  | binary op lhs rhs => (lhs.value f).comparison op (rhs.value f)

theorem value_property (f : Feature) (name : String) :
    (property name).value f = Scalar.ofValue? (f.scalar? name) := by
  rw [value, Feature.scalar?]
  cases f.get? name with
  | none => rfl
  | some v => cases v <;> rfl

/-- Whether a condition holds for a feature. -/
def holds (c : Condition) (f : Feature) : Bool := (c.value f).toBool

end Condition
end FeatureStyle
