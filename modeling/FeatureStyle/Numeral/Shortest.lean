import FeatureStyle.Numeral.Decimal

/-!
# Shortest decimals

The shortest decimal of a number is the one with the fewest digits that rounds back to the number,
and the nearest of those. For a count of digits only the two neighbours of the number on the grid of
that many digits can round back if any decimal of that grid does.
-/

namespace FeatureStyle

/-- Which of two equally near decimals is taken. -/
inductive Tie
  | even
  | up
deriving DecidableEq

namespace Double

/-- The exact decimal expansion of a finite number, up to its sign. -/
def exactDecimal (x : Double) : Decimal := ⟨x.units * Nat.pow 5 1074, -1074⟩

/-- The nearest decimal with `count` digits among those that round back, if there is one. -/
def decimalOfLength? (x : Double) (tie : Tie) (count : Nat) : Option Decimal :=
  let exact := x.exactDecimal.digits
  let dropped := digitCount exact - count
  let step := Nat.pow 10 dropped
  let low := exact / step
  let rest := exact % step
  let below : Decimal := ⟨low, dropped - 1074⟩
  let above : Decimal := ⟨low + 1, dropped - 1074⟩
  let takeBelow := 2 * rest < step || (2 * rest == step && tie == .even && low % 2 == 0)
  if below.magnitude = x.magnitude then
    if above.magnitude = x.magnitude && !takeBelow then some above else some below
  else if above.magnitude = x.magnitude then some above
  else none

/-- The shortest decimal that rounds back to a finite number, up to its sign. Seventeen digits are
enough for every number. -/
def shortest (x : Double) (tie : Tie) : Decimal :=
  let found := (List.range 17).findSome? fun i => x.decimalOfLength? tie (i + 1)
  let decimal := found.getD x.exactDecimal
  decimal.trim (digitCount decimal.digits)

end Double
end FeatureStyle
