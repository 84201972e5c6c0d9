import FeatureStyle.Proofs.Numeral.Nearest
import FeatureStyle.Proofs.Numeral.Scanning
import FeatureStyle.Proofs.Value.RoundTrip
import FeatureStyle.Session.Printer

/-!
# Printed numbers

Documents have a grammar of numerals of their own, a part of the one in which texts are read. A printer
is faithful if it writes integers in decimal digits and every other number as a numeral of documents
that is rounded to this number. Then each of its spellings is read back bit for bit, whatever the
layout: this is `NumberPrinter.Faithful.denotes`. The printer of a session is faithful
(`NumberPrinter.faithful_document`).
-/

namespace FeatureStyle

namespace Numeral

def minus (negative : Bool) : List Char := if negative then ['-'] else []

/-- The digits before the point in a document. None but a zero alone begin with a zero. -/
inductive Whole : List Char → Prop
  | zero : Whole ['0']
  | digits {c : Char} {rest : List Char} : AllDigits (c :: rest) → c ≠ '0' → Whole (c :: rest)

inductive Fraction : List Char → List Char → Prop
  | none : Fraction [] []
  | pointed {digits : List Char} : AllDigits digits → digits ≠ [] → Fraction ('.' :: digits) digits

/-- A numeral of documents spells a decimal. -/
def SpellsStrictly (text : List Char) (d : Decimal) : Prop :=
  ∃ whole point fraction exponent power, text = whole ++ point ++ exponent ∧ Whole whole ∧
    Fraction point fraction ∧ Exponent exponent power ∧
    d = ⟨digitsValue (whole ++ fraction), power - fraction.length⟩

/-- A numeral of documents, with an optional minus in front, spells a number. -/
def DenotesStrictly (text : List Char) (x : Double) : Prop :=
  ∃ negative numeral d, SpellsStrictly numeral d ∧ text = minus negative ++ numeral ∧
    x = d.toDouble negative

variable {text digits : List Char} {d : Decimal} {x : Double}

private theorem signText_minus (negative : Bool) : SignText (minus negative) negative := by
  cases negative
  · exact .none
  · exact .minus

private theorem Whole.allDigits {whole : List Char} (h : Whole whole) : AllDigits whole := by
  cases h with
  | zero => simp [AllDigits]
  | digits hdigits _ => exact hdigits

private theorem Whole.ne_nil {whole : List Char} (h : Whole whole) : whole ≠ [] := by
  cases h <;> exact List.cons_ne_nil _ _

private theorem Whole.mantissa {whole point fraction : List Char} (h : Whole whole)
    (hfraction : Fraction point fraction) : Mantissa (whole ++ point) whole fraction := by
  cases hfraction with
  | none =>
    rw [List.append_nil]
    exact .whole h.allDigits h.ne_nil
  | pointed hdigits _ =>
    exact .pointed h.allDigits hdigits (List.append_ne_nil_of_left_ne_nil h.ne_nil _)

theorem SpellsStrictly.spells (h : SpellsStrictly text d) : Spells text d := by
  obtain ⟨whole, point, fraction, exponent, power, htext, hwhole, hfraction, hexponent, hd⟩ := h
  exact ⟨_, _, _, _, _, htext, hwhole.mantissa hfraction, hexponent, hd⟩

private theorem DenotesStrictly.denotes (h : DenotesStrictly text x) : Denotes text x := by
  obtain ⟨negative, numeral, d, hspells, htext, hx⟩ := h
  exact ⟨_, _, _, _, signText_minus negative, hspells.spells, htext, hx⟩

private theorem denotes_integer (n : Int) :
    Denotes (minus (n < 0) ++ Nat.toDigits 10 n.natAbs) (Double.ofInt n) := by
  have hspells : Spells (Nat.toDigits 10 n.natAbs) ⟨n.natAbs, 0⟩ :=
    ⟨_, [], _, [], 0, (List.append_nil _).symm, .whole (allDigits_toDigits _) Nat.toDigits_ne_nil,
      .none, by simp [digitsValue_toDigits]⟩
  refine ⟨_, _, _, _, signText_minus _, hspells, rfl, ?_⟩
  rw [Decimal.toDouble, Decimal.magnitude_eq_nearest, Double.ofInt, Double.ofRatio]
  simp

end Numeral

/-- Integers are printed in decimal digits, and every other number as a numeral of documents whose
nearest number it is. -/
structure NumberPrinter.Faithful (printer : NumberPrinter) : Prop where
  integer {n : Int} : (JsonNumber.integer n).fits = true →
    (printer.text (.integer n)).toList = Numeral.minus (n < 0) ++ Nat.toDigits 10 n.natAbs
  double {x : Double} : x.isFinite = true →
    Numeral.DenotesStrictly (printer.text (.double x)).toList x

/-- What a faithful printer writes for a number denotes this number. -/
theorem NumberPrinter.Faithful.denotes {printer : NumberPrinter} (h : printer.Faithful)
    {n : JsonNumber} (hn : n.fits = true) : Numeral.Denotes (printer.text n).toList n.toDouble := by
  cases n with
  | integer n =>
    rw [h.integer hn]
    exact Numeral.denotes_integer n
  | double x => exact (h.double hn).denotes

namespace Numeral

private theorem digitsValue_append_zeros (digits : List Char) (n : Nat) :
    digitsValue (digits ++ List.replicate n '0') = 10 ^ n * digitsValue digits :=
  (Nat.ofDigitChars_append 0).trans Nat.ofDigitChars_replicate_zero

private theorem digitsValue_zeros_append (n : Nat) (digits : List Char) :
    digitsValue (List.replicate n '0' ++ digits) = digitsValue digits :=
  (Nat.ofDigitChars_append 0).trans (by rw [Nat.ofDigitChars_replicate_zero, Nat.mul_zero]; rfl)

private theorem allDigits_zeros (n : Nat) : AllDigits (List.replicate n '0') := by
  intro c hc
  rw [List.eq_of_mem_replicate hc]
  decide

private theorem AllDigits.append {digits digits' : List Char} (h : AllDigits digits)
    (h' : AllDigits digits') : AllDigits (digits ++ digits') :=
  List.forall_mem_append.mpr ⟨h, h'⟩

private theorem head_toDigits {n : Nat} (h : n ≠ 0) : ∀ c ∈ (Nat.toDigits 10 n).head?, c ≠ '0' := by
  induction n using Nat.strongRecOn with
  | ind n ih =>
    rcases Nat.lt_or_ge n 10 with hlt | hge
    · rw [Nat.toDigits_of_lt_base hlt]
      rintro c hc rfl
      have hvalue := congrArg digitsValue (Nat.toDigits_of_lt_base hlt)
      rw [digitsValue_toDigits, Option.mem_def.mp hc |> Option.some.inj] at hvalue
      exact h hvalue
    · rw [Nat.toDigits_of_base_le (by decide) hge, List.head?_append_of_ne_nil _ Nat.toDigits_ne_nil]
      exact ih (n / 10) (by omega) (by omega)

private theorem whole_digit {c : Char} (h : c.isDigit = true) : Whole [c] := by
  by_cases hzero : c = '0'
  · rw [hzero]
    exact .zero
  · exact .digits (List.forall_mem_singleton.mpr h) hzero

end Numeral

namespace NumeralStyle

open Numeral

/-- A numeral of documents for a number of the given value. -/
def Writes (text : List Char) (d : Decimal) : Prop := ∃ e, SpellsStrictly text e ∧ e.value = d.value

variable {c : Char} {rest : List Char} {point : Int}

private theorem writes_pointed {whole fraction : List Char} {d : Decimal} (hwhole : Whole whole)
    (hfraction : AllDigits fraction) (hne : fraction ≠ [])
    (hvalue : (⟨digitsValue (whole ++ fraction), -fraction.length⟩ : Decimal).value = d.value) :
    Writes (whole ++ '.' :: fraction) d :=
  ⟨_, ⟨_, _, _, [], 0, (List.append_nil _).symm, hwhole, .pointed hfraction hne, .none, rfl⟩,
    by rwa [zero_sub]⟩

private theorem writes_layExponent (hdigits : AllDigits (c :: rest)) :
    Writes (layExponent (c :: rest) point)
      ⟨digitsValue (c :: rest), point - (c :: rest).length⟩ := by
  obtain ⟨hc, hrest⟩ := List.forall_mem_cons.mp hdigits
  have hfraction : Fraction (if rest = [] then [] else '.' :: rest) rest := by
    split
    · rename_i hempty
      rw [hempty]
      exact .none
    · rename_i hne
      exact .pointed hrest hne
  have hpower : Exponent
      ('e' :: (if point - 1 < 0 then '-' else '+') :: Nat.toDigits 10 (point - 1).natAbs)
      (point - 1) := by
    have hall := allDigits_toDigits (point - 1).natAbs
    split
    · have hexponent := Exponent.minus (.inl rfl) hall Nat.toDigits_ne_nil
      rwa [digitsValue_toDigits, show -((point - 1).natAbs : Int) = point - 1 by omega] at hexponent
    · have hexponent := Exponent.plus (.inl rfl) hall Nat.toDigits_ne_nil
      rwa [digitsValue_toDigits, show ((point - 1).natAbs : Int) = point - 1 by omega] at hexponent
  refine ⟨_, ⟨_, _, _, _, _, ?_, whole_digit hc, hfraction, hpower, rfl⟩, ?_⟩
  · simp [layExponent]
  · congr 2
    simp only [List.length_cons]
    omega

private theorem layPositional_eq (mark digits : List Char) (point : Int) :
    layPositional mark digits point =
      if point ≤ 0 then '0' :: '.' :: List.replicate (-point).toNat '0' ++ digits
      else if (digits.length : Int) ≤ point then
        digits ++ List.replicate (point - digits.length).toNat '0' ++ mark
      else digits.take point.toNat ++ '.' :: digits.drop point.toNat := rfl

private theorem writes_layPositional (hdigits : AllDigits (c :: rest)) (hc : c ≠ '0') :
    Writes (layPositional ['.', '0'] (c :: rest) point)
      ⟨digitsValue (c :: rest), point - (c :: rest).length⟩ := by
  rw [layPositional_eq]
  split
  · -- All digits stand behind the point, after some zeros.
    rename_i hpoint
    rw [List.cons_append, List.cons_append]
    refine writes_pointed .zero ((allDigits_zeros (-point).toNat).append hdigits) (by simp) ?_
    rw [show (['0'] : List Char) = List.replicate 1 '0' from rfl, digitsValue_zeros_append,
      digitsValue_zeros_append, List.length_append, List.length_replicate]
    congr 2
    omega
  · rename_i hpoint
    split
    · -- A whole number: the numeral has more zeros than the decimal, one of them behind the point.
      rename_i hlength
      obtain ⟨zeros, hzeros⟩ := Int.eq_ofNat_of_zero_le (Int.sub_nonneg.mpr hlength)
      rw [hzeros, Int.toNat_natCast]
      refine writes_pointed (.digits (hdigits.append (allDigits_zeros zeros)) hc)
        (allDigits_zeros 1) (by simp) ?_
      rw [List.append_assoc, show ['0'] = List.replicate 1 '0' from rfl, List.replicate_append_replicate,
        digitsValue_append_zeros, Decimal.value_zeros, List.length_replicate]
      congr 2
      omega
    · -- The point stands among the digits.
      rename_i hlength
      obtain ⟨before, hbefore⟩ : ∃ before, point.toNat = before + 1 := ⟨point.toNat - 1, by omega⟩
      rw [hbefore, List.take_succ_cons, List.drop_succ_cons]
      have hall := List.forall_mem_cons.mp hdigits
      have hwhole : AllDigits (c :: rest.take before) :=
        List.forall_mem_cons.mpr ⟨hall.1, fun d hd => hall.2 d (List.mem_of_mem_take hd)⟩
      have hfraction : AllDigits (rest.drop before) := fun d hd =>
        hall.2 d (List.mem_of_mem_drop hd)
      have hrest : before < rest.length := by
        rw [List.length_cons] at hlength
        omega
      refine writes_pointed (.digits hwhole hc) hfraction (by simpa using hrest) ?_
      rw [List.cons_append, List.take_append_drop, List.length_drop, List.length_cons]
      congr 2
      omega

/-- Either way a decimal is laid out, what is written has its value. -/
theorem writes_decimal {d : Decimal} (h : d.digits ≠ 0) :
    let digits := Nat.toDigits 10 d.digits
    Writes (document.lay digits (digits.length + d.exponent)) d := by
  intro digits
  obtain ⟨c, rest, hcons⟩ : ∃ c rest, digits = c :: rest :=
    List.exists_cons_of_ne_nil Nat.toDigits_ne_nil
  have hall : AllDigits (c :: rest) := hcons ▸ allDigits_toDigits d.digits
  have hc : c ≠ '0' := head_toDigits h c (congrArg List.head? hcons)
  have hvalue : digitsValue (c :: rest) = d.digits := hcons ▸ digitsValue_toDigits d.digits
  rw [hcons]
  have hd : d = ⟨digitsValue (c :: rest), (c :: rest).length + d.exponent - (c :: rest).length⟩ := by
    rw [hvalue, add_sub_cancel_left]
  generalize ((c :: rest).length : Int) + d.exponent = point at hd ⊢
  rw [hd]
  simp only [document]
  split
  · exact writes_layPositional hall hc
  · exact writes_layExponent hall

end NumeralStyle

namespace Double

open Numeral

variable {x : Double} {d : Decimal}

private theorem toDouble_of_magnitude (hx : x.isFinite = true) (h : d.magnitude = x.magnitude) :
    d.toDouble x.negative = x := by
  have hle : x.magnitude.val ≤ infinityMagnitude := Nat.le_of_lt (by simpa [isFinite] using hx)
  rw [Decimal.toDouble, ofMagnitude, h]
  simp only [Nat.min_eq_left hle]

private theorem denotes_of_writes (hx : x.isFinite = true) {body : List Char}
    (h : NumeralStyle.Writes body d) (hd : d.magnitude = x.magnitude) :
    DenotesStrictly (minus x.negative ++ body) x := by
  obtain ⟨e, hspells, hvalue⟩ := h
  have hmagnitude := (Decimal.magnitude_congr hvalue).trans hd
  exact ⟨_, _, _, hspells, rfl, (toDouble_of_magnitude hx hmagnitude).symm⟩

private theorem denotes_document (hx : x.isFinite = true) :
    DenotesStrictly (NumeralStyle.document.text x).toList x := by
  have hsign : (if (x.negative && (NumeralStyle.document.signedZero || !x.isZero)) = true then ['-']
      else []) = minus x.negative := by
    simp [NumeralStyle.document, minus]
  rw [NumeralStyle.text]
  simp only [hsign, String.toList_ofList]
  split
  · rename_i hzero
    have hmagnitude : (⟨0, -1⟩ : Decimal).magnitude = x.magnitude := by
      simpa [isZero, Decimal.magnitude, eq_comm] using hzero
    exact denotes_of_writes hx
      (NumeralStyle.writes_pointed .zero (allDigits_zeros 1) (List.cons_ne_nil _ _) rfl) hmagnitude
  · rename_i hnonzero
    have hmagnitude := magnitude_shortest hx NumeralStyle.document.tie
    refine denotes_of_writes hx (NumeralStyle.writes_decimal fun hdigits => hnonzero ?_) hmagnitude
    rw [isZero, decide_eq_true_iff, ← hmagnitude, Decimal.magnitude, if_pos hdigits]

end Double

theorem NumberPrinter.faithful_document : document.Faithful where
  integer _ := String.toList_ofList.trans (by simp [Numeral.minus])
  double hx := Double.denotes_document hx

end FeatureStyle
