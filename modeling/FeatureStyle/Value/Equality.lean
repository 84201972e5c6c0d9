import FeatureStyle.Value.Basic

/-!
# Equality of values

`==` compares values tag by tag and numbers numerically: zeros of both signs are equal, and a value
that holds something that is not a number is not even equal to itself.
-/

namespace FeatureStyle.Value

mutual

protected def beq : Value → Value → Bool
  | null, null => true
  | bool a, bool b => a == b
  | number x, number y => x == y
  | string s, string t => s == t
  | object a, object b => beqFields a b
  | array a, array b => beqItems a b
  | expression (.constant a), expression (.constant b) => Value.beq a b
  | expression (.conditions a), expression (.conditions b) => a == b
  | _, _ => false

def beqFields : List (String × Value) → List (String × Value) → Bool
  | [], [] => true
  | (key, a) :: as, (key', b) :: bs => key == key' && Value.beq a b && beqFields as bs
  | _, _ => false

def beqItems : List Value → List Value → Bool
  | [], [] => true
  | a :: as, b :: bs => Value.beq a b && beqItems as bs
  | _, _ => false

end

instance : BEq Value := ⟨Value.beq⟩

end FeatureStyle.Value

namespace FeatureStyle.Expression

protected def beq (a b : Expression Value) : Bool := Value.expression a == Value.expression b

instance : BEq (Expression Value) := ⟨Expression.beq⟩

end FeatureStyle.Expression
