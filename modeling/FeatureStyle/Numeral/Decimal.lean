import FeatureStyle.Double.Rounding

/-!
# Decimal numbers

A decimal is a natural number of digits times a power of ten.
-/

namespace FeatureStyle

structure Decimal where
  digits : Nat
  exponent : Int
deriving DecidableEq

namespace Decimal

/-- The magnitude of the nearest number. Above `10 ^ 400` every decimal is infinite and below
`10 ^ -400` every one is zero, so huge exponents need no huge powers. -/
def magnitude (d : Decimal) : Nat :=
  if d.digits = 0 then 0
  else if 0 ≤ d.exponent then
    if 400 < d.exponent then Double.infinityMagnitude
    else Double.nearestMagnitude (d.digits * Nat.pow 10 d.exponent.toNat) 1
  else if (d.digits.log2 : Int) + 400 < -d.exponent then 0
  else Double.nearestMagnitude d.digits (Nat.pow 10 (-d.exponent).toNat)

/-- The nearest number, with the given sign also for zero. -/
def toDouble (d : Decimal) (negative : Bool) : Double := Double.ofMagnitude negative d.magnitude

/-- Drops the trailing zeros of the digits, at most `fuel` of them. -/
def trim : Nat → Decimal → Decimal
  | 0, d => d
  | fuel + 1, d =>
    if d.digits ≠ 0 ∧ d.digits % 10 = 0 then trim fuel ⟨d.digits / 10, d.exponent + 1⟩ else d

end Decimal

def digitCount (n : Nat) : Nat := (Nat.toDigits 10 n).length

end FeatureStyle
