import Mathlib.Algebra.Field.Rat
import Mathlib.Algebra.Order.Field.Rat
import Mathlib.Tactic.FieldSimp
import Mathlib.Tactic.NormNum
import FeatureStyle.Numeral.Shortest

/-!
# Exact decimals

A decimal that is the exact size of a finite number rounds to this number: rounding gives every number
back, and the bounds on exponents cut off only decimals that round to infinity or to zero anyway. The
main statement is `Decimal.magnitude_of_value_eq`.
-/

namespace FeatureStyle

theorem roundHalfEven_mul (n : Nat) {den : Nat} (hden : 0 < den) :
    roundHalfEven (n * den) den = n := by
  simp [roundHalfEven, Nat.mul_div_cancel n hden, hden]

private theorem two_pow_le_ten_pow {n k : Nat} (h : n ≤ 3 * k) : 2 ^ n ≤ 10 ^ k := by
  calc 2 ^ n ≤ 2 ^ (3 * k) := Nat.pow_le_pow_right (by omega) h
    _ = 8 ^ k := by rw [Nat.pow_mul]
    _ ≤ 10 ^ k := Nat.pow_le_pow_left (by omega) k

namespace Double

/-- The least positive number is two to the power of minus this. Nothing should compute powers of
it, so it does not unfold. -/
@[irreducible] def unitBits : Nat := 1074

theorem unitBits_eq : unitBits = 1074 := by rw [unitBits]

/-- How often the least positive number goes into one. -/
def unitsInOne : Nat := 2 ^ unitBits

def size (x : Double) : ℚ := x.units / unitsInOne

theorem unitsInOne_pos : 0 < unitsInOne := Nat.two_pow_pos unitBits

variable {x : Double}

theorem units_cases (x : Double) :
    x.units = x.magnitude.val ∧ x.magnitude.val < fractions ∨
      ∃ zeros fraction, fraction < fractions ∧
        x.units = (fractions + fraction) * 2 ^ zeros ∧
        x.magnitude.val = zeros * fractions + (fractions + fraction) := by
  have hsplit := Nat.div_add_mod x.magnitude.val fractions
  have hfraction := Nat.mod_lt x.magnitude.val (show 0 < fractions by decide)
  cases hexponent : x.magnitude.val / fractions with
  | zero =>
    left
    rw [hexponent] at hsplit
    exact ⟨by simp [units, hexponent], by omega⟩
  | succ zeros =>
    right
    refine ⟨zeros, x.magnitude.val % fractions, hfraction, ?_, ?_⟩
    · simp [units, hexponent, Nat.shiftLeft_eq]
    · rw [hexponent, Nat.mul_succ, Nat.mul_comm] at hsplit
      omega

theorem shiftLeft_units (num : Nat) : num <<< 1074 = num * unitsInOne := by
  rw [unitsInOne, ← unitBits_eq, Nat.shiftLeft_eq]

private theorem nearestMagnitude_of_large {num den bits : Nat} (hbits : 1025 ≤ bits)
    (hden : 0 < den)
    (h : 2 ^ bits * den ≤ num) : nearestMagnitude num den = infinityMagnitude := by
  have hunit := unitBits_eq
  have hquotient : 2 ^ (bits + unitBits) ≤ num * unitsInOne / den := by
    rw [Nat.le_div_iff_mul_le hden, Nat.pow_add, Nat.mul_right_comm]
    exact Nat.mul_le_mul_right _ h
  simp only [nearestMagnitude, shiftLeft_units]
  generalize num * unitsInOne = scaled at hquotient
  have hne : scaled / den ≠ 0 := by
    have hpos := Nat.two_pow_pos (bits + unitBits)
    omega
  have hlog := (Nat.le_log2 hne).mpr hquotient
  have hshift : 2047 ≤ (scaled / den).log2 - 52 := by omega
  refine Nat.min_eq_left ?_
  calc infinityMagnitude = 2047 * fractions := by decide
    _ ≤ ((scaled / den).log2 - 52) * fractions := Nat.mul_le_mul_right _ hshift
    _ ≤ _ := Nat.le_add_right _ _

private theorem nearestMagnitude_of_small {num den : Nat} (h : 2 * (num * unitsInOne) < den) :
    nearestMagnitude num den = 0 := by
  have hlt : num * unitsInOne < den := by omega
  have hshift : Nat.log2 0 - 52 = 0 := by decide
  simp only [nearestMagnitude, shiftLeft_units, roundHalfEven, Nat.div_eq_of_lt hlt, hshift,
    Nat.shiftLeft_zero, Nat.mod_eq_of_lt hlt, h, true_or, if_true, Nat.zero_mul, Nat.add_zero,
    Nat.min_zero]

private theorem nearestMagnitude_of_eq (h : x.isFinite = true) {num den : Nat} (hden : 0 < den)
    (heq : num * unitsInOne = x.units * den) : nearestMagnitude num den = x.magnitude := by
  have hmagnitude : x.magnitude.val < infinityMagnitude := by simpa [isFinite] using h
  have hscaled : num <<< 1074 = x.units * den := by rw [shiftLeft_units, heq]
  simp only [nearestMagnitude, hscaled, Nat.mul_div_cancel _ hden]
  rcases units_cases x with ⟨hunits, hsmall⟩ | ⟨zeros, fraction, hfraction, hunits, hsplit⟩
  · have hshift : x.units.log2 - 52 = 0 := by
      by_cases hzero : x.units = 0
      · rw [hzero]
        rfl
      · have hlog := (Nat.log2_lt hzero).mpr (show x.units < 2 ^ 52 by rw [hunits]; exact hsmall)
        omega
    rw [hshift, Nat.shiftLeft_zero, roundHalfEven_mul _ hden, hunits]
    omega
  · have hshift : x.units.log2 - 52 = zeros := by
      have hpow := Nat.two_pow_pos zeros
      have hfractions : fractions = 2 ^ 52 := rfl
      have hlog : x.units.log2 = 52 + zeros := by
        rw [Nat.log2_eq_iff (by rw [hunits]; exact Nat.mul_ne_zero (by omega) (by omega)), hunits]
        constructor
        · rw [Nat.pow_add]
          exact Nat.mul_le_mul_right _ (by omega)
        · rw [show 52 + zeros + 1 = 53 + zeros by omega, Nat.pow_add]
          exact Nat.mul_lt_mul_of_pos_right (by omega) hpow
      omega
    have hden' : 0 < den <<< zeros := by
      rw [Nat.shiftLeft_eq]
      exact Nat.mul_pos hden (Nat.two_pow_pos zeros)
    have hproduct : x.units * den = (fractions + fraction) * (den <<< zeros) := by
      rw [hunits, Nat.shiftLeft_eq, Nat.mul_assoc, Nat.mul_comm (2 ^ zeros)]
    rw [hshift, hproduct, roundHalfEven_mul _ hden', ← hsplit]
    omega

end Double

namespace Decimal

def value (d : Decimal) : ℚ := d.digits * 10 ^ d.exponent

variable {d : Decimal} {x : Double}

theorem value_eq_div (d : Decimal) :
    d.value = (d.digits * 10 ^ d.exponent.toNat : Nat) / (10 ^ (-d.exponent).toNat : Nat) := by
  have hexponent : (10 : ℚ) ^ d.exponent =
      10 ^ d.exponent.toNat / 10 ^ (-d.exponent).toNat := by
    rw [← zpow_natCast, ← zpow_natCast, ← zpow_sub₀ (by norm_num), Int.toNat_sub_toNat_neg]
  rw [value, hexponent, ← mul_div_assoc]
  push_cast
  rfl

theorem ten_pow_cast_ne_zero (n : Nat) : ((10 ^ n : Nat) : ℚ) ≠ 0 :=
  Nat.cast_ne_zero.mpr (Nat.ne_of_gt (Nat.pow_pos (by omega)))

private theorem value_eq_size_iff :
    d.value = x.size ↔
      d.digits * 10 ^ d.exponent.toNat * Double.unitsInOne =
        x.units * 10 ^ (-d.exponent).toNat := by
  have hunits : (Double.unitsInOne : ℚ) ≠ 0 :=
    Nat.cast_ne_zero.mpr (Nat.ne_of_gt Double.unitsInOne_pos)
  rw [value_eq_div, Double.size, div_eq_div_iff (ten_pow_cast_ne_zero _) hunits]
  exact_mod_cast Iff.rfl

/-- The bounds on exponents change nothing. -/
theorem magnitude_eq_nearest (d : Decimal) :
    d.magnitude =
      Double.nearestMagnitude (d.digits * 10 ^ d.exponent.toNat) (10 ^ (-d.exponent).toNat) := by
  have hpos : ∀ n, 0 < 10 ^ n := fun n => Nat.pow_pos (by omega)
  rw [magnitude]
  split
  · rename_i hzero
    rw [hzero, Nat.zero_mul, Double.nearestMagnitude_of_small]
    rw [Nat.zero_mul]
    exact hpos _
  rename_i hdigits
  split
  · rename_i hsign
    have hnegative : (-d.exponent).toNat = 0 := by omega
    rw [hnegative, Nat.pow_zero, Nat.pow_eq]
    split
    · -- Each decimal digit counts for three bits, so a power above `10 ^ 400` is infinite.
      rename_i hlarge
      have hbits : 1025 ≤ 3 * d.exponent.toNat := by omega
      have hpow : 2 ^ (3 * d.exponent.toNat) ≤ 10 ^ d.exponent.toNat :=
        two_pow_le_ten_pow (Nat.le_refl _)
      rw [Double.nearestMagnitude_of_large hbits Nat.one_pos]
      calc 2 ^ (3 * d.exponent.toNat) * 1 ≤ 10 ^ d.exponent.toNat := by rwa [Nat.mul_one]
        _ ≤ d.digits * 10 ^ d.exponent.toNat := Nat.le_mul_of_pos_left _ (by omega)
    · rfl
  · rename_i hsign
    have hpositive : d.exponent.toNat = 0 := by omega
    rw [hpositive, Nat.pow_zero, Nat.mul_one, Nat.pow_eq]
    split
    · -- The power of ten takes away more bits than the digits and the units of one have.
      rename_i hsmall
      have hbits := Double.unitBits_eq
      have hlt : d.digits * Double.unitsInOne < 2 ^ (d.digits.log2 + 1 + Double.unitBits) := by
        rw [Nat.pow_add]
        exact Nat.mul_lt_mul_of_pos_right Nat.lt_log2_self Double.unitsInOne_pos
      have hpow : 2 ^ (d.digits.log2 + 1 + Double.unitBits + 1) ≤ 10 ^ (-d.exponent).toNat :=
        two_pow_le_ten_pow (by omega)
      rw [Nat.pow_succ] at hpow
      rw [Double.nearestMagnitude_of_small (by omega)]
    · rfl

/-- A decimal that is the size of a finite number rounds to this number. -/
theorem magnitude_of_value_eq (hx : x.isFinite = true) (h : d.value = x.size) :
    d.magnitude = x.magnitude := by
  rw [magnitude_eq_nearest]
  exact Double.nearestMagnitude_of_eq hx (Nat.pow_pos (by omega)) (value_eq_size_iff.mp h)

theorem value_exactDecimal (x : Double) : x.exactDecimal.value = x.size := by
  have hexact : x.exactDecimal = ⟨x.units * 5 ^ Double.unitBits, -Double.unitBits⟩ := by
    have hexponent : (-1074 : Int) = -Double.unitBits := by
      rw [Double.unitBits_eq]
      rfl
    rw [Double.exactDecimal, hexponent, ← Double.unitBits_eq, Nat.pow_eq]
  rw [hexact, value_eq_size_iff]
  simp only [neg_neg, Int.toNat_natCast, Int.toNat_neg_natCast, Nat.pow_zero, Nat.mul_one]
  rw [Double.unitsInOne, Nat.mul_assoc, ← Nat.mul_pow]

end Decimal
end FeatureStyle
