import Mathlib.Tactic.Ring
import FeatureStyle.Proofs.Numeral.Scanning
import FeatureStyle.Proofs.Value.RoundTrip

/-!
# Decimals that round to infinity

A decimal rounds to a finite number exactly if it lies below the middle between the largest finite
number and the next power of two; the middle itself is rounded up, since the largest finite number is
odd. What is read from a text is finite up to there, and infinite beyond. The main statements are
`Double.nearestMagnitude_lt_iff` and `Numeral.isInfinite_of_read?`.
-/

namespace FeatureStyle

theorem succ_le_roundHalfEven_iff (num : Nat) {den q : Nat} (hden : 0 < den) (hodd : q % 2 = 1) :
    q + 1 ≤ roundHalfEven num den ↔ (2 * q + 1) * den ≤ 2 * num := by
  have hsplit := Nat.div_add_mod num den
  have hmod := Nat.mod_lt num hden
  have hproduct : (2 * q + 1) * den = 2 * (den * q) + den := by ring
  simp only [roundHalfEven, hproduct]
  generalize num / den = quotient at hsplit
  generalize num % den = remainder at hsplit hmod
  rcases Nat.lt_trichotomy quotient q with hlt | rfl | hgt
  · have hbelow : den * quotient + den ≤ den * q := Nat.mul_le_mul_left den hlt
    split <;> omega
  · split <;> omega
  · have habove : den * q + den ≤ den * quotient := Nat.mul_le_mul_left den hgt
    split <;> omega

private theorem div_le_roundHalfEven (num den : Nat) : num / den ≤ roundHalfEven num den := by
  simp only [roundHalfEven]
  split <;> omega

namespace Double

/-- The middle between the largest finite number and the next power of two. -/
def overflow : Nat := 2 ^ 1024 - 2 ^ 970

private theorem overflow_units :
    overflow * unitsInOne = (4 * fractions - 1) * 2 ^ (970 + unitBits) := by
  have hoverflow : overflow = (4 * fractions - 1) * 2 ^ 970 := by decide +kernel
  rw [hoverflow, unitsInOne, Nat.mul_assoc, ← Nat.pow_add]

variable {num den scaled shift top : Nat}

private theorem div_mul_two_pow (scaled den shift : Nat) :
    scaled / (den * 2 ^ shift) = scaled / den / 2 ^ shift := (Nat.div_div_eq_div_mul ..).symm

private theorem quotient_lt (h : (scaled / den).log2 ≤ shift + 52) :
    scaled / den < 2 * fractions * 2 ^ shift := by
  calc scaled / den < 2 ^ ((scaled / den).log2 + 1) := Nat.lt_log2_self
    _ ≤ 2 ^ (53 + shift) := Nat.pow_le_pow_right (by omega) (by omega)
    _ = 2 * fractions * 2 ^ shift := Nat.pow_add ..

private theorem le_quotient (hshift : 0 < shift) (h : (scaled / den).log2 = shift + 52) :
    fractions * 2 ^ shift ≤ scaled / den := by
  have hne : scaled / den ≠ 0 := by
    intro hzero
    rw [hzero, Nat.log2_zero] at h
    omega
  calc fractions * 2 ^ shift = 2 ^ (52 + shift) := (Nat.pow_add 2 52 shift).symm
    _ ≤ scaled / den := (Nat.le_log2 hne).mp (by omega)

private theorem rounded_of_le (hden : 0 < den) (hle : shift ≤ top)
    (hlog : (scaled / den).log2 ≤ shift + 52) :
    shift * fractions + roundHalfEven scaled (den * 2 ^ shift) < (top + 3) * fractions ∧
      scaled < (4 * fractions - 1) * 2 ^ top * den := by
  have hquotient := quotient_lt hlog
  have hround : roundHalfEven scaled (den * 2 ^ shift) ≤ 2 * fractions := by
    refine Nat.le_trans (roundHalfEven_le _ _) ?_
    rw [div_mul_two_pow]
    exact (Nat.div_lt_iff_lt_mul (Nat.two_pow_pos shift)).mpr hquotient
  constructor
  · calc shift * fractions + roundHalfEven scaled (den * 2 ^ shift)
        ≤ shift * fractions + 2 * fractions := Nat.add_le_add_left hround _
      _ = (shift + 2) * fractions := (Nat.add_mul ..).symm
      _ < (top + 3) * fractions := Nat.mul_lt_mul_of_pos_right (by omega) (by decide)
  · calc scaled < 2 * fractions * 2 ^ shift * den := (Nat.div_lt_iff_lt_mul hden).mp hquotient
      _ ≤ (4 * fractions - 1) * 2 ^ top * den := by
        refine Nat.mul_le_mul_right _ (Nat.mul_le_mul (by decide) ?_)
        exact Nat.pow_le_pow_right (by omega) hle

private theorem rounded_of_eq (hden : 0 < den) :
    (top + 1) * fractions + roundHalfEven scaled (den * 2 ^ (top + 1)) < (top + 3) * fractions ↔
      scaled < (4 * fractions - 1) * 2 ^ top * den := by
  have hden' : 0 < den * 2 ^ (top + 1) := Nat.mul_pos hden (Nat.two_pow_pos _)
  have hodd : (2 * fractions - 1) % 2 = 1 := by decide
  have hcarry := succ_le_roundHalfEven_iff scaled hden' hodd
  have hsum : (top + 3) * fractions = (top + 1) * fractions + (2 * fractions - 1 + 1) := by
    rw [show top + 3 = top + 1 + 2 from rfl, Nat.add_mul _ 2]
    rfl
  have hmiddle : (2 * (2 * fractions - 1) + 1) * (den * 2 ^ (top + 1)) =
      2 * ((4 * fractions - 1) * 2 ^ top * den) := by
    rw [show 2 * (2 * fractions - 1) + 1 = 4 * fractions - 1 from rfl, Nat.pow_succ]
    ring
  rw [hsum, Nat.add_lt_add_iff_left, ← Nat.not_le, hcarry, hmiddle, Nat.not_le]
  omega

private theorem rounded_of_lt (hlt : top + 1 < shift) (hlog : (scaled / den).log2 = shift + 52) :
    (top + 3) * fractions ≤ shift * fractions + roundHalfEven scaled (den * 2 ^ shift) ∧
      (4 * fractions - 1) * 2 ^ top * den ≤ scaled := by
  have hquotient := le_quotient (by omega) hlog
  have hround : fractions ≤ roundHalfEven scaled (den * 2 ^ shift) := by
    refine Nat.le_trans ?_ (div_le_roundHalfEven _ _)
    rw [div_mul_two_pow]
    exact (Nat.le_div_iff_mul_le (Nat.two_pow_pos shift)).mpr hquotient
  constructor
  · calc (top + 3) * fractions ≤ (shift + 1) * fractions := Nat.mul_le_mul_right _ (by omega)
      _ = shift * fractions + fractions := Nat.succ_mul ..
      _ ≤ _ := Nat.add_le_add_left hround _
  · calc (4 * fractions - 1) * 2 ^ top * den ≤ fractions * 2 ^ shift * den := by
          refine Nat.mul_le_mul_right _ ?_
          calc (4 * fractions - 1) * 2 ^ top ≤ fractions * 2 ^ 2 * 2 ^ top :=
                Nat.mul_le_mul_right _ (by decide)
            _ = fractions * 2 ^ (2 + top) := by rw [Nat.mul_assoc, ← Nat.pow_add]
            _ ≤ fractions * 2 ^ shift :=
              Nat.mul_le_mul_left _ (Nat.pow_le_pow_right (by omega) (by omega))
      _ ≤ scaled / den * den := Nat.mul_le_mul_right _ hquotient
      _ ≤ scaled := Nat.div_mul_le_self _ _

/-- Rounded to 53 bits, a quotient stays in the range of the exponents exactly if it is below the
middle between the largest number in it and the next power of two. -/
theorem rounded_lt_iff (hden : 0 < den) (hshift : (scaled / den).log2 - 52 = shift) :
    shift * fractions + roundHalfEven scaled (den <<< shift) < (top + 3) * fractions ↔
      scaled < (4 * fractions - 1) * 2 ^ top * den := by
  rw [Nat.shiftLeft_eq]
  rcases Nat.lt_trichotomy shift (top + 1) with hlt | rfl | hgt
  · have hlog : (scaled / den).log2 ≤ shift + 52 := by omega
    obtain ⟨hbelow, hscaled⟩ := rounded_of_le hden (Nat.le_of_lt_succ hlt) hlog
    exact iff_of_true hbelow hscaled
  · exact rounded_of_eq hden
  · have hlog : (scaled / den).log2 = shift + 52 := by omega
    obtain ⟨habove, hscaled⟩ := rounded_of_lt hgt hlog
    exact iff_of_false (Nat.not_lt.mpr habove) (Nat.not_lt.mpr hscaled)

theorem nearestMagnitude_lt_iff (hden : 0 < den) :
    nearestMagnitude num den < infinityMagnitude ↔ num < overflow * den := by
  have htop : infinityMagnitude = (970 + unitBits + 3) * fractions := by
    rw [unitBits_eq]
    rfl
  have hscaled : num < overflow * den ↔
      num * unitsInOne < (4 * fractions - 1) * 2 ^ (970 + unitBits) * den := by
    rw [← overflow_units, Nat.mul_right_comm, Nat.mul_lt_mul_right unitsInOne_pos]
  rw [hscaled, ← rounded_lt_iff hden rfl, ← htop]
  simp only [nearestMagnitude, shiftLeft_units]
  omega

end Double

namespace Decimal

private theorem magnitude_lt_iff (d : Decimal) :
    d.magnitude < Double.infinityMagnitude ↔ d.value < Double.overflow := by
  have hpos : ∀ n, 0 < 10 ^ n := fun n => Nat.pow_pos (by omega)
  have hcast : (0 : ℚ) < (10 ^ (-d.exponent).toNat : Nat) := Nat.cast_pos.mpr (hpos _)
  rw [magnitude_eq_nearest, Double.nearestMagnitude_lt_iff (hpos _), value_eq_div, div_lt_iff₀ hcast]
  exact_mod_cast Iff.rfl

theorem isFinite_toDouble (d : Decimal) (negative : Bool) :
    (d.toDouble negative).isFinite = true ↔ d.value < Double.overflow := by
  rw [← magnitude_lt_iff, Double.isFinite, decide_eq_true_iff]
  simp [toDouble, Double.ofMagnitude]

theorem isInfinite_toDouble (d : Decimal) (negative : Bool) :
    (d.toDouble negative).isInfinite = true ↔ Double.overflow ≤ d.value := by
  rw [← not_lt, ← magnitude_lt_iff, Double.isInfinite, decide_eq_true_iff]
  simp [toDouble, Double.ofMagnitude]

theorem isNaN_toDouble (d : Decimal) (negative : Bool) : (d.toDouble negative).isNaN = false := by
  rw [Double.isNaN, decide_eq_false_iff_not, Nat.not_lt]
  exact Nat.min_le_right _ _

end Decimal

namespace Numeral

/-- A text spells a decimal, with an optional sign in front, that is too large to be rounded to a finite
number. -/
def Overflows (text : List Char) : Prop :=
  ∃ sign negative numeral d, SignText sign negative ∧ Spells numeral d ∧ text = sign ++ numeral ∧
    Double.overflow ≤ d.value

variable {text : List Char} {x : Double}

theorem isInfinite_of_read? (h : read? text = some x) :
    x.isNaN = false ∧ (x.isInfinite = true ↔ Overflows text) ∧
      (x.isFinite = true ↔ ¬ Overflows text) := by
  obtain ⟨sign, negative, numeral, d, hsign, hnumeral, htext, rfl⟩ := read?_eq_some_iff.mp h
  have hoverflows : Overflows text ↔ Double.overflow ≤ d.value := by
    constructor
    · intro hoverflows
      obtain ⟨sign', negative', numeral', d', hsign', hnumeral', htext', hle⟩ := hoverflows
      have hread := read?_eq_some_iff.mpr ⟨_, _, _, _, hsign', hnumeral', htext', rfl⟩
      have heq : d'.toDouble negative' = d.toDouble negative := by
        rw [h] at hread
        exact (Option.some.inj hread).symm
      rw [← Decimal.isInfinite_toDouble d negative, ← heq, Decimal.isInfinite_toDouble]
      exact hle
    · intro hle
      exact ⟨sign, negative, numeral, d, hsign, hnumeral, htext, hle⟩
  rw [hoverflows, not_le]
  exact ⟨d.isNaN_toDouble negative, d.isInfinite_toDouble negative, d.isFinite_toDouble negative⟩

end Numeral
end FeatureStyle
