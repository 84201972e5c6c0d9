/-!
# Double-precision numbers

A number is its sign bit together with its remaining 63 bits, read as one natural number: the
magnitude. Magnitudes are ordered as the numbers they stand for, so comparing numbers is comparing
signed magnitudes, and rounding produces a magnitude directly. `=` is equality bit for bit; `==` is
numeric equality.
-/

namespace FeatureStyle

namespace Double

abbrev magnitudes : Nat := 0x8000000000000000

/-- How many magnitudes share an exponent, `2 ^ 52`. -/
def fractions : Nat := 0x10000000000000

end Double

/-- A 64-bit binary floating-point number. -/
structure Double where
  negative : Bool
  magnitude : Fin Double.magnitudes
deriving DecidableEq

namespace Double

/-- The magnitude of infinity. The magnitudes above it are those of the values that are not numbers. -/
def infinityMagnitude : Nat := 0x7FF0000000000000

theorem infinityMagnitude_lt : infinityMagnitude < magnitudes := by decide

/-- The number of a magnitude, at most infinite. -/
def ofMagnitude (negative : Bool) (magnitude : Nat) : Double where
  negative := negative
  magnitude := ⟨min magnitude infinityMagnitude,
    Nat.lt_of_le_of_lt (Nat.min_le_right ..) infinityMagnitude_lt⟩

def zero : Double := ⟨false, 0⟩

def one : Double := ofMagnitude false 0x3FF0000000000000

def infinity : Double := ofMagnitude false infinityMagnitude

/-- The quiet value that is not a number and has no payload. -/
def nan : Double := ⟨false, 0x7FF8000000000000⟩

def ofBits (bits : UInt64) : Double where
  negative := magnitudes ≤ bits.toNat
  magnitude := ⟨bits.toNat % magnitudes, Nat.mod_lt _ (by decide)⟩

def toBits (x : Double) : UInt64 :=
  UInt64.ofNat (x.magnitude + if x.negative then magnitudes else 0)

def isNaN (x : Double) : Bool := infinityMagnitude < x.magnitude.val

def isInfinite (x : Double) : Bool := x.magnitude.val = infinityMagnitude

def isFinite (x : Double) : Bool := x.magnitude.val < infinityMagnitude

def isZero (x : Double) : Bool := x.magnitude.val = 0

/-- Flips the sign bit, also of a zero. -/
protected def neg (x : Double) : Double := { x with negative := !x.negative }

instance : Neg Double := ⟨Double.neg⟩

/-- The place of a number on the line of all numbers. Both zeros share one place. -/
def place (x : Double) : Int := if x.negative then -(x.magnitude.val : Int) else x.magnitude.val

def compare? (x y : Double) : Option Ordering :=
  if x.isNaN || y.isNaN then none else some (compare x.place y.place)

/-- Numeric equality: the zeros are equal, and a value that is not a number equals nothing. -/
protected def beq (x y : Double) : Bool := !x.isNaN && !y.isNaN && x.place == y.place

instance : BEq Double := ⟨Double.beq⟩

/-- The size of a finite number in units of the least positive number, `2 ^ -1074`. -/
def units (x : Double) : Nat :=
  let exponent := x.magnitude.val / fractions
  if exponent = 0 then x.magnitude.val
  else (fractions + x.magnitude.val % fractions) <<< (exponent - 1)

end Double
end FeatureStyle
