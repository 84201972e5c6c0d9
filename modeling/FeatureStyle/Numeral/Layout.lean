import FeatureStyle.Numeral.Shortest

/-!
# Numerals

The text of a number is its shortest decimal, laid out as a style says. Values shown as text have the
plain style, which never uses an exponent.
-/

namespace FeatureStyle

/-- How a finite number is written. -/
structure NumeralStyle where
  tie : Tie
  /-- Whether a negative zero keeps its sign. -/
  signedZero : Bool
  /-- The text of `0.digits * 10 ^ point`. -/
  lay : (digits : List Char) → (point : Int) → List Char

namespace NumeralStyle

private def zeros (n : Int) : List Char := List.replicate n.toNat '0'

/-- The digits with a decimal point after the first `point` of them. A whole number has `mark` in place
of the point. -/
def layPositional (mark digits : List Char) (point : Int) : List Char :=
  if point ≤ 0 then '0' :: '.' :: zeros (-point) ++ digits
  else if (digits.length : Int) ≤ point then digits ++ zeros (point - digits.length) ++ mark
  else digits.take point.toNat ++ '.' :: digits.drop point.toNat

/-- Values shown as text never use an exponent and write whole numbers as integers. -/
def plain : NumeralStyle where
  tie := .up
  signedZero := false
  lay := layPositional []

def text (style : NumeralStyle) (x : Double) : String :=
  let sign := if x.negative && (style.signedZero || !x.isZero) then ['-'] else []
  let body :=
    if x.isZero then style.lay ['0'] 1
    else
      let decimal := x.shortest style.tie
      let digits := Nat.toDigits 10 decimal.digits
      style.lay digits (digits.length + decimal.exponent)
  String.ofList (sign ++ body)

end NumeralStyle

def Double.text (x : Double) : String :=
  if x.isNaN then "NaN"
  else if x.isInfinite then if x.negative then "-Infinity" else "Infinity"
  else NumeralStyle.plain.text x

end FeatureStyle
