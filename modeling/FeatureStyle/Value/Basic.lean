import FeatureStyle.Double.Basic
import FeatureStyle.Table

/-!
# Property values

A value is plain data, or an expression that depends on a feature and is resolved later. Objects list
their fields in the order of the keys.
-/

namespace FeatureStyle

/-- One condition together with the result it selects. -/
structure Branch where
  condition : String
  result : String
deriving DecidableEq

/-- An expression over values of type `α`: a constant, or branches of which the first match counts. -/
inductive Expression (α : Type)
  | constant (value : α)
  | conditions (branches : List Branch)

/-- A property value. -/
inductive Value
  | null
  | bool (b : Bool)
  | number (x : Double)
  | string (s : String)
  | object (fields : List (String × Value))
  | array (items : List Value)
  | expression (e : Expression Value)

instance : Inhabited Value := ⟨.null⟩

/-- The tag of a value. -/
inductive Kind
  | null
  | bool
  | number
  | string
  | object
  | array
  | expression
deriving DecidableEq

def Kind.name : Kind → String
  | null => "null"
  | bool => "bool"
  | number => "number"
  | string => "string"
  | object => "object"
  | array => "array"
  | expression => "expression"

def Kind.index : Kind → Nat
  | null => 0
  | bool => 1
  | number => 2
  | string => 3
  | object => 4
  | array => 5
  | expression => 6

/-- The reserved key of an object whose value is to be sampled anew whenever it is shown. -/
def timeKey : String := "timeDependent"

namespace Value

def kind : Value → Kind
  | null => .null
  | bool _ => .bool
  | number _ => .number
  | string _ => .string
  | object _ => .object
  | array _ => .array
  | expression _ => .expression

def isNull : Value → Bool
  | null => true
  | _ => false

/-- Holds of null, booleans, numbers and strings. -/
def isScalar : Value → Bool
  | null | bool _ | number _ | string _ => true
  | object _ | array _ | expression _ => false

def bool? : Value → Option Bool
  | bool b => some b
  | _ => none

def number? : Value → Option Double
  | number x => some x
  | _ => none

def string? : Value → Option String
  | string s => some s
  | _ => none

def object? : Value → Option (Fields Value)
  | object fields => some fields
  | _ => none

def array? : Value → Option (List Value)
  | array items => some items
  | _ => none

def expression? : Value → Option (Expression Value)
  | expression e => some e
  | _ => none

mutual

/-- Holds if an expression stands anywhere in the value. The inside of an expression does not matter. -/
def hasExpression : Value → Bool
  | expression _ => true
  | object fields => hasExpressionFields fields
  | array items => hasExpressionItems items
  | null | bool _ | number _ | string _ => false

def hasExpressionFields : List (String × Value) → Bool
  | [] => false
  | (_, value) :: fields => hasExpression value || hasExpressionFields fields

def hasExpressionItems : List Value → Bool
  | [] => false
  | item :: items => hasExpression item || hasExpressionItems items

end

mutual

/-- How deep objects and arrays are nested. Scalars and expressions have depth zero. -/
def depth : Value → Nat
  | object fields => 1 + depthFields fields
  | array items => 1 + depthItems items
  | null | bool _ | number _ | string _ | expression _ => 0

def depthFields : List (String × Value) → Nat
  | [] => 0
  | (_, value) :: fields => max (depth value) (depthFields fields)

def depthItems : List Value → Nat
  | [] => 0
  | item :: items => max (depth item) (depthItems items)

end

/-- Holds of an object whose time-dependence marker is true. -/
def isTimed : Value → Bool
  | object fields =>
    match Fields.get? fields timeKey with
    | some (bool true) => true
    | _ => false
  | _ => false

/-- The value without its time-dependence marker. -/
def untimed : Value → Value
  | object fields => object (Fields.erase fields timeKey)
  | value => value

end Value
end FeatureStyle
