import FeatureStyle.Proofs.Numeral.Spelling

/-!
# What is scanned is a numeral

What the scanner takes from the head of a text is a numeral of the grammar, and the decimal found is
the one it spells. So a whole text is read as a number exactly if it is a numeral with an optional sign
in front. The main statement is `read?_eq_some_iff`.
-/

namespace FeatureStyle.Numeral

inductive SignText : List Char → Bool → Prop
  | none : SignText [] false
  | plus : SignText ['+'] false
  | minus : SignText ['-'] true

/-- A numeral with an optional sign in front spells a number. -/
def Denotes (text : List Char) (x : Double) : Prop :=
  ∃ sign negative numeral d, SignText sign negative ∧ Spells numeral d ∧ text = sign ++ numeral ∧
    x = d.toDouble negative

variable {text rest : List Char} {d : Decimal} {x : Double}

private theorem allDigits_takeWhile (text : List Char) : AllDigits (text.takeWhile Char.isDigit) :=
  List.all_eq_true.mp List.all_takeWhile

private theorem mantissa_of_scan {whole fraction : List Char}
    (h : scanMantissa text = (whole, fraction, rest)) (hne : whole ++ fraction ≠ []) :
    ∃ mantissa, text = mantissa ++ rest ∧ Mantissa mantissa whole fraction := by
  have htext := List.takeWhile_append_dropWhile (p := Char.isDigit) (l := text)
  unfold scanMantissa at h
  split at h
  · rename_i tail hdrop
    have htail := List.takeWhile_append_dropWhile (p := Char.isDigit) (l := tail)
    cases h
    refine ⟨_, ?_, .pointed (allDigits_takeWhile text) (allDigits_takeWhile tail) hne⟩
    rw [List.append_assoc, List.cons_append, htail, ← hdrop, htext]
  · cases h
    rw [List.append_nil] at hne
    exact ⟨_, htext.symm, .whole (allDigits_takeWhile text) hne⟩

private theorem signText_of_scan {negative : Bool} (h : scanSign text = (negative, rest)) :
    ∃ sign, text = sign ++ rest ∧ SignText sign negative := by
  unfold scanSign at h
  split at h <;> cases h
  · exact ⟨_, rfl, .minus⟩
  · exact ⟨_, rfl, .plus⟩
  · exact ⟨_, rfl, .none⟩

private theorem SignText.exponent {sign digits : List Char} {negative : Bool}
    (h : SignText sign negative)
    {mark : Char} (hmark : mark = 'e' ∨ mark = 'E') (hdigits : AllDigits digits) (hne : digits ≠ []) :
    Exponent (mark :: (sign ++ digits))
      (if negative then -(digitsValue digits : Int) else digitsValue digits) := by
  cases h with
  | none => exact .unsigned hmark hdigits hne
  | plus => exact .plus hmark hdigits hne
  | minus => exact .minus hmark hdigits hne

private theorem exponent_of_scan {power : Int} (h : scanExponent text = (power, rest)) :
    ∃ exponent, text = exponent ++ rest ∧ Exponent exponent power := by
  have hnone : (0, text) = (power, rest) →
      ∃ exponent, text = exponent ++ rest ∧ Exponent exponent power := by
    intro h
    cases h
    exact ⟨[], rfl, .none⟩
  unfold scanExponent at h
  split at h
  · rename_i mark tail
    split at h
    · rename_i hmark
      cases hscan : scanSign tail with
      | mk negative unsigned =>
        simp only [hscan] at h
        split at h
        · exact hnone h
        · rename_i hne
          obtain ⟨sign, rfl, hsign⟩ := signText_of_scan hscan
          have hdigits := allDigits_takeWhile unsigned
          have htext := List.takeWhile_append_dropWhile (p := Char.isDigit) (l := unsigned)
          cases h
          refine ⟨_, ?_, hsign.exponent hmark hdigits (by simpa using hne)⟩
          rw [List.cons_append, List.append_assoc, htext]
    · exact hnone h
  · exact hnone h

theorem spells_of_scan? (h : scan? text = some (d, rest)) :
    ∃ numeral, text = numeral ++ rest ∧ Spells numeral d := by
  cases hscan : scanMantissa text with
  | mk whole scanned =>
    cases hpower : scanExponent scanned.2 with
    | mk power last =>
      simp only [scan?, hscan, hpower] at h
      split at h
      · cases h
      · rename_i hne
        cases h
        obtain ⟨mantissa, rfl, hmantissa⟩ := mantissa_of_scan hscan (by simpa using hne)
        obtain ⟨exponent, hexponent, hpower⟩ := exponent_of_scan hpower
        refine ⟨mantissa ++ exponent, ?_, _, _, _, _, _, rfl, hmantissa, hpower, rfl⟩
        rw [hexponent, List.append_assoc]

private theorem SignText.scan {sign numeral : List Char} {negative : Bool}
    (h : SignText sign negative)
    (hnumeral : Spells numeral d) : scanSign (sign ++ numeral) = (negative, numeral) := by
  cases h with
  | none =>
    obtain ⟨c, tail, rfl, hc⟩ := hnumeral.head
    rw [List.nil_append]
    unfold scanSign
    split
    · rename_i heq
      cases heq
      exact absurd hc (by decide)
    · rename_i heq
      cases heq
      exact absurd hc (by decide)
    · rfl
  | plus => rfl
  | minus => rfl

/-- A text is read as a number exactly if it is a numeral with an optional sign. -/
theorem read?_eq_some_iff : read? text = some x ↔ Denotes text x := by
  constructor
  · intro h
    cases hhead : scanSign text with
    | mk negative unsigned =>
      simp only [read?, hhead] at h
      split at h
      · rename_i d hscan
        cases h
        obtain ⟨sign, rfl, hsign⟩ := signText_of_scan hhead
        obtain ⟨numeral, rfl, hnumeral⟩ := spells_of_scan? hscan
        exact ⟨sign, negative, numeral, d, hsign, hnumeral, by rw [List.append_nil], rfl⟩
      · cases h
  · rintro ⟨sign, negative, numeral, d, hsign, hnumeral, rfl, rfl⟩
    have hscan := hnumeral.scan?_append ends_nil
    rw [List.append_nil] at hscan
    simp only [read?, hsign.scan hnumeral, hscan]

theorem Denotes.ne_nil (h : Denotes text x) : text ≠ [] := by
  obtain ⟨sign, negative, numeral, d, -, hnumeral, rfl, -⟩ := h
  obtain ⟨c, tail, rfl, -⟩ := hnumeral.head
  simp

theorem Denotes.isDigit_or_mark (h : Denotes text x) : ∀ c ∈ text, c.isDigit = true ∨ c ∈ marks := by
  obtain ⟨sign, negative, numeral, d, hsign, hnumeral, rfl, -⟩ := h
  refine List.forall_mem_append.mpr ⟨fun c hc => .inr ?_, hnumeral.isDigit_or_mark⟩
  cases hsign with
  | none => cases hc
  | plus | minus =>
    rw [List.mem_singleton.mp hc]
    decide

end FeatureStyle.Numeral
