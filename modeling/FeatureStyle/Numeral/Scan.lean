import FeatureStyle.Numeral.Decimal
import FeatureStyle.Text.Blank

/-!
# Reading numerals

An unsigned numeral has digits with an optional decimal point, at least one of them, and then
optionally an exponent with at least one digit. The longest one at the head of a text is read.
-/

namespace FeatureStyle

namespace Numeral

def digitsValue (digits : List Char) : Nat :=
  digits.foldl (fun value c => 10 * value + (c.toNat - '0'.toNat)) 0

/-- The digits before and after the decimal point at the head of a text, and the rest. -/
def scanMantissa (text : List Char) : List Char × List Char × List Char :=
  let whole := text.takeWhile Char.isDigit
  match text.dropWhile Char.isDigit with
  | '.' :: rest => (whole, rest.takeWhile Char.isDigit, rest.dropWhile Char.isDigit)
  | rest => (whole, [], rest)

def scanSign : List Char → Bool × List Char
  | '-' :: rest => (true, rest)
  | '+' :: rest => (false, rest)
  | rest => (false, rest)

/-- The exponent at the head of a text, zero if there is none, and the rest. -/
def scanExponent (text : List Char) : Int × List Char :=
  match text with
  | mark :: rest =>
    if mark = 'e' ∨ mark = 'E' then
      let (negative, unsigned) := scanSign rest
      let digits := unsigned.takeWhile Char.isDigit
      if digits.isEmpty then (0, text)
      else
        let size : Int := digitsValue digits
        (if negative then -size else size, unsigned.dropWhile Char.isDigit)
    else (0, text)
  | [] => (0, [])

/-- The longest unsigned numeral at the head of a text, and the rest. -/
def scan? (text : List Char) : Option (Decimal × List Char) :=
  let (whole, fraction, afterMantissa) := scanMantissa text
  if whole.isEmpty && fraction.isEmpty then none
  else
    let (exponent, rest) := scanExponent afterMantissa
    some (⟨digitsValue (whole ++ fraction), exponent - fraction.length⟩, rest)

/-- The number that a whole text spells, with an optional sign. -/
def read? (text : List Char) : Option Double :=
  let (negative, unsigned) := scanSign text
  match scan? unsigned with
  | some (decimal, []) => some (decimal.toDouble negative)
  | _ => none

end Numeral

/-- The number that a text spells. Blanks around it are ignored. -/
def Double.ofText? (text : String) : Option Double := Numeral.read? (Text.trim text.toList)

end FeatureStyle
