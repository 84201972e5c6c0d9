import FeatureStyle.Json.Basic
import FeatureStyle.Numeral.Layout

/-!
# The printer of a session

A session writes integers with all their digits, marks other whole numbers by `.0`, and uses an exponent
from `10 ^ 16` up and below `10 ^ -5`.
-/

namespace FeatureStyle

namespace NumeralStyle

/-- The digits with a point after the first one, and the power of ten with its sign. -/
def layExponent (digits : List Char) (point : Int) : List Char :=
  let exponent := point - 1
  digits.take 1 ++ (if digits.length ≤ 1 then [] else '.' :: digits.drop 1) ++
    'e' :: (if exponent < 0 then '-' else '+') :: Nat.toDigits 10 exponent.natAbs

def document : NumeralStyle where
  tie := .even
  signedZero := true
  lay digits point :=
    if -5 < point ∧ point ≤ 16 then layPositional ['.', '0'] digits point
    else layExponent digits point

end NumeralStyle

instance NumberPrinter.document : NumberPrinter where
  text
    | .integer n => String.ofList ((if n < 0 then ['-'] else []) ++ Nat.toDigits 10 n.natAbs)
    | .double x => NumeralStyle.document.text x

end FeatureStyle
