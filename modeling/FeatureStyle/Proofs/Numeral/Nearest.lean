import FeatureStyle.Proofs.Numeral.Exact

/-!
# Decimals of one value

Rounding looks at the value of a quotient and not at how it is written. So decimals of one value round
to one number, with or without zeros at the end, and the shortest decimal of a number rounds back to
it. The main statements are `Decimal.magnitude_congr` and `Double.magnitude_shortest`.
-/

namespace FeatureStyle

private theorem roundHalfEven_mul_right (num den : Nat) {k : Nat} (hk : 0 < k) :
    roundHalfEven (num * k) (den * k) = roundHalfEven num den := by
  have hlt : 2 * (num * k % (den * k)) < den * k ↔ 2 * (num % den) < den := by
    rw [Nat.mul_mod_mul_right, ← Nat.mul_assoc, Nat.mul_lt_mul_right hk]
  have heq : 2 * (num * k % (den * k)) = den * k ↔ 2 * (num % den) = den := by
    rw [Nat.mul_mod_mul_right, ← Nat.mul_assoc, Nat.mul_left_inj (Nat.ne_of_gt hk)]
  simp only [roundHalfEven, hlt, heq, Nat.mul_div_mul_right _ _ hk]

private theorem mul_shiftLeft (n k shift : Nat) : (n * k) <<< shift = n <<< shift * k := by
  rw [Nat.shiftLeft_eq, Nat.shiftLeft_eq, Nat.mul_right_comm]

namespace Double

variable {num den num' den' : Nat}

private theorem nearestMagnitude_mul_right (num den : Nat) {k : Nat} (hk : 0 < k) :
    nearestMagnitude (num * k) (den * k) = nearestMagnitude num den := by
  simp only [nearestMagnitude, mul_shiftLeft, Nat.mul_div_mul_right _ _ hk,
    roundHalfEven_mul_right _ _ hk]

theorem nearestMagnitude_congr (hden : 0 < den) (hden' : 0 < den') (h : num * den' = num' * den) :
    nearestMagnitude num den = nearestMagnitude num' den' :=
  calc nearestMagnitude num den = nearestMagnitude (num * den') (den * den') :=
        (nearestMagnitude_mul_right num den hden').symm
    _ = nearestMagnitude (num' * den) (den' * den) := by rw [h, Nat.mul_comm den]
    _ = nearestMagnitude num' den' := nearestMagnitude_mul_right num' den' hden

end Double

namespace Decimal

variable {d e : Decimal}

theorem magnitude_congr (h : d.value = e.value) : d.magnitude = e.magnitude := by
  rw [value_eq_div, value_eq_div,
    div_eq_div_iff (ten_pow_cast_ne_zero _) (ten_pow_cast_ne_zero _)] at h
  rw [magnitude_eq_nearest, magnitude_eq_nearest]
  exact Double.nearestMagnitude_congr (Nat.pow_pos (by omega)) (Nat.pow_pos (by omega))
    (by exact_mod_cast h)

theorem value_zeros (n digits : Nat) (exponent : Int) :
    value ⟨10 ^ n * digits, exponent⟩ = value ⟨digits, exponent + n⟩ := by
  simp only [value]
  rw [zpow_add₀ (by norm_num), zpow_natCast]
  push_cast
  rw [mul_assoc, mul_left_comm, mul_comm (10 ^ n)]

private theorem value_trim (fuel : Nat) (d : Decimal) : (trim fuel d).value = d.value := by
  induction fuel generalizing d with
  | zero => rfl
  | succ fuel ih =>
    rw [trim]
    split
    · rename_i hzeros
      have hdigits : 10 ^ 1 * (d.digits / 10) = d.digits := by omega
      have hvalue := value_zeros 1 (d.digits / 10) d.exponent
      rw [hdigits] at hvalue
      exact (ih _).trans hvalue.symm
    · rfl

end Decimal

namespace Double

variable {x : Double} {d : Decimal}

private theorem magnitude_of_decimalOfLength? {tie : Tie} {count : Nat}
    (h : x.decimalOfLength? tie count = some d) : d.magnitude = x.magnitude := by
  simp only [decimalOfLength?] at h
  split at h
  · split at h
    · rename_i habove
      cases h
      exact of_decide_eq_true (Bool.and_eq_true_iff.mp habove).1
    · cases h
      assumption
  · split at h
    · cases h
      assumption
    · cases h

/-- The shortest decimal of a finite number rounds back to it. -/
theorem magnitude_shortest (hx : x.isFinite = true) (tie : Tie) :
    (x.shortest tie).magnitude = x.magnitude := by
  rw [shortest, Decimal.magnitude_congr (Decimal.value_trim _ _)]
  cases hfound : (List.range 17).findSome? fun i => x.decimalOfLength? tie (i + 1) with
  | none => exact Decimal.magnitude_of_value_eq hx (Decimal.value_exactDecimal x)
  | some d =>
    obtain ⟨i, -, hi⟩ := List.exists_of_findSome?_eq_some hfound
    exact magnitude_of_decimalOfLength? hi

end Double
end FeatureStyle
