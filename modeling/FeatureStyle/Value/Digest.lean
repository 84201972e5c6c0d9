import FeatureStyle.Value.Basic

/-!
# Digests of values

What a hasher is fed for a value: a sequence of writes. Tags, lengths and numbers are written as
words, booleans as bytes. Numbers are written so that the zeros agree and all values that are not
numbers agree, hence equal values have equal digests.
-/

namespace FeatureStyle

inductive Write
  | word (n : Nat)
  | byte (n : Nat)
  | text (s : String)
deriving DecidableEq, Hashable

/-- The bits a number is hashed by. -/
def Double.digest (x : Double) : Nat :=
  if x.isZero then 0 else if x.isNaN then Double.nan.toBits.toNat else x.toBits.toNat

def Branch.digest (branch : Branch) : List Write := [.text branch.condition, .text branch.result]

namespace Value

mutual

def digest : Value → List Write
  | null => [.word Kind.null.index]
  | bool b => [.word Kind.bool.index, .byte b.toNat]
  | number x => [.word Kind.number.index, .word x.digest]
  | string s => [.word Kind.string.index, .text s]
  | object fields => .word Kind.object.index :: .word fields.length :: digestFields fields
  | array items => .word Kind.array.index :: .word items.length :: digestItems items
  | expression (.constant value) => .word Kind.expression.index :: .word 0 :: digest value
  | expression (.conditions branches) =>
    .word Kind.expression.index :: .word 1 :: .word branches.length :: branches.flatMap Branch.digest

def digestFields : List (String × Value) → List Write
  | [] => []
  | (key, value) :: fields => .text key :: digest value ++ digestFields fields

def digestItems : List Value → List Write
  | [] => []
  | item :: items => digest item ++ digestItems items

end

end Value
end FeatureStyle
