import FeatureStyle.Double.Basic

/-!
# Rounding to the nearest number

Quotients of natural numbers are rounded to the nearest number, a tie to the one with an even
magnitude. All arithmetic is exact.
-/

namespace FeatureStyle

/-- The integer nearest to a quotient, of two equally near ones the even one. -/
def roundHalfEven (num den : Nat) : Nat :=
  let quotient := num / den
  let twice := 2 * (num % den)
  if twice < den ∨ (twice = den ∧ quotient % 2 = 0) then quotient else quotient + 1

namespace Double

/-- The magnitude nearest to a quotient. Rounding up past a power of two carries into the exponent
by itself, since magnitudes of neighbours differ by one. -/
def nearestMagnitude (num den : Nat) : Nat :=
  let scaled := num <<< 1074
  let shift := (scaled / den).log2 - 52
  min infinityMagnitude (shift * fractions + roundHalfEven scaled (den <<< shift))

def ofRatio (negative : Bool) (num den : Nat) : Double :=
  ofMagnitude negative (nearestMagnitude num den)

def ofNat (n : Nat) : Double := ofRatio false n 1

def ofInt (n : Int) : Double := ofRatio (n < 0) n.natAbs 1

/-- Widens a single-precision number, given by its bits. Every finite one is represented exactly. -/
def ofSingleBits (bits : UInt32) : Double :=
  let negative : Bool := 0x80000000 ≤ bits.toNat
  let exponent := bits.toNat / 0x800000 % 0x100
  let fraction := bits.toNat % 0x800000
  if exponent = 255 then
    if fraction = 0 then ofMagnitude negative infinityMagnitude else { nan with negative }
  else if exponent = 0 then ofRatio negative fraction (1 <<< 149)
  else ofRatio negative ((0x800000 + fraction) <<< (exponent - 1)) (1 <<< 149)

end Double
end FeatureStyle
