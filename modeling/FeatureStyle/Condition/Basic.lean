import FeatureStyle.Double.Basic

/-!
# Conditions

A condition is a tree of operators over constants and properties of a feature. Constants are scalars
or undefined, and so is everything that a part of a condition evaluates to.
-/

namespace FeatureStyle

/-- A constant of a condition, or what a part of one evaluates to. -/
inductive Scalar
  | undefined
  | null
  | bool (b : Bool)
  | number (x : Double)
  | string (s : String)
deriving DecidableEq

/-- The binary operators, loosest first. -/
inductive Operator
  | or
  | and
  | eq
  | ne
  | lt
  | le
  | gt
  | ge
deriving DecidableEq

def Operator.symbol : Operator → String
  | or => "||"
  | and => "&&"
  | eq => "=="
  | ne => "!="
  | lt => "<"
  | le => "<="
  | gt => ">"
  | ge => ">="

inductive Condition
  | constant (value : Scalar)
  | property (name : String)
  | not (part : Condition)
  | minus (part : Condition)
  | binary (op : Operator) (lhs rhs : Condition)
deriving DecidableEq

namespace Condition

/-- The greatest number of operators on a way from the root to a leaf. -/
def height : Condition → Nat
  | constant _ | property _ => 0
  | not part | minus part => part.height + 1
  | binary _ lhs rhs => max lhs.height rhs.height + 1

end Condition
end FeatureStyle
