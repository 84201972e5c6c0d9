import FeatureStyle.Proofs.Condition.Rules
import FeatureStyle.Proofs.Condition.Acceptance
import FeatureStyle.Proofs.Condition.Splitting

/-!
# Literals of strings

Every string can be written in either kind of quotes. Where the quotes of a literal end and what its
inside stands for is decided by two scanners; both follow how the string was written. The main statement
is `parse_of_writes`.
-/

namespace FeatureStyle

namespace Lexeme

inductive IsLetter : Char → Char → Prop
  | feed : IsLetter '\n' 'n'
  | return : IsLetter '\r' 'r'
  | tab : IsLetter '\t' 't'

/-- The ways to write a string inside quotes: a backslash stands in front of every backslash and every
quote, and it may stand with a letter for a line feed, a carriage return or a tab. -/
inductive Writes (quote : Char) : List Char → List Char → Prop
  | nil : Writes quote [] []
  | plain {c : Char} {text inner : List Char} : c ≠ '\\' → c ≠ quote → Writes quote text inner →
    Writes quote (c :: text) (c :: inner)
  | escaped {c : Char} {text inner : List Char} : c = '\\' ∨ c = quote → Writes quote text inner →
    Writes quote (c :: text) ('\\' :: c :: inner)
  | letter {c letter : Char} {text inner : List Char} : IsLetter c letter → Writes quote text inner →
    Writes quote (c :: text) ('\\' :: letter :: inner)

variable {quote : Char} {text inner spelling rest : List Char} {token : Token}

theorem writes_escape (quote : Char) (text : List Char) : Writes quote text (escape quote text) := by
  induction text with
  | nil => exact .nil
  | cons c text ih =>
    rw [escape, List.flatMap_cons]
    split
    · rename_i hc
      exact .escaped hc ih
    · rename_i hc
      obtain ⟨hbackslash, hquote⟩ := not_or.mp hc
      exact .plain hbackslash hquote ih

private theorem IsQuote.not_letter (h : IsQuote quote) :
    quote ≠ '\n' ∧ quote ≠ 'n' ∧ quote ≠ 't' ∧ quote ≠ 'r' := by
  rcases h with rfl | rfl <;> decide

private theorem escaped_ne (hquote : IsQuote quote) {c : Char} (hc : c = '\\' ∨ c = quote) :
    c ≠ '\n' ∧ c ≠ 'n' ∧ c ≠ 't' ∧ c ≠ 'r' := by
  rcases hc with rfl | rfl
  · decide
  · exact hquote.not_letter

private theorem Writes.inside (h : Writes quote text inner) (hquote : IsQuote quote) :
    Inside quote inner := by
  induction h with
  | nil => exact .nil
  | plain hbackslash hne _ ih => exact .plain hbackslash hne ih
  | escaped hc _ ih => exact .escaped (escaped_ne hquote hc).1 ih
  | letter hletter _ ih => exact .escaped (by cases hletter <;> decide) ih

/-- What was written stands for the string. -/
theorem Writes.decodeEscapes (h : Writes quote text inner) (hquote : IsQuote quote) :
    decodeEscapes inner = text := by
  induction h with
  | nil => rfl
  | plain hbackslash _ _ ih => simp [Lexeme.decodeEscapes, hbackslash, ih]
  | escaped hc _ ih =>
    obtain ⟨-, hn, ht, hr⟩ := escaped_ne hquote hc
    simp [Lexeme.decodeEscapes, ih]
  | letter hletter _ ih => cases hletter <;> simp [Lexeme.decodeEscapes, ih]

private theorem Writes.spells (h : Writes quote text inner) (hquote : IsQuote quote) :
    Spells (quote :: (inner ++ [quote])) (.constant (.string (String.ofList text))) := by
  have hspells := Spells.string hquote (h.inside hquote)
  rwa [h.decodeEscapes hquote] at hspells

theorem Splits.string {tokens : List Token} (h : Splits rest tokens) (hquote : IsQuote quote)
    (s : String) : Splits (quoted quote s ++ rest) (.constant (.string s) :: tokens) := by
  have hwrites := writes_escape quote s.toList
  have hstring := (hwrites.inside hquote).stringPiece hquote rest
  rw [hwrites.decodeEscapes hquote, String.ofList_toList] at hstring
  have hpiece : Lexeme.piece (quoted quote s ++ rest) =
      .ofToken (.constant (.string s)) (quoted quote s).length := by
    rw [quoted, List.cons_append, List.append_assoc, List.singleton_append]
    simp only [List.length_cons, List.length_append, List.length_nil]
    rw [← hstring]
    rcases hquote with rfl | rfl <;> rfl
  apply h.piece (List.cons_ne_nil _ _) _ hpiece
  intro c tail heq
  cases heq
  rcases hquote with rfl | rfl <;> decide

theorem Spells.split (h : Spells spelling token) :
    split spelling = .ok [⟨token, 0, byteLength spelling⟩] := by
  have hended : Ended [] := fun c tail heq => by cases heq
  have hpiece := h.piece_append hended
  rw [List.append_nil] at hpiece
  obtain ⟨c, tail, rfl, hc⟩ := h.head
  rw [Lexeme.split, List.length_cons, splitAt_token hc hpiece, List.take_length, List.drop_length,
    Nat.zero_add]
  cases tail.length <;> rfl

end Lexeme

namespace Condition

open Lexeme

/-- A string between quotes, however it is written, is one token that takes the whole text, and the text
is the condition that is this string. Every string can be written so. -/
theorem parse_of_writes (s : String) {quote : Char} (hquote : IsQuote quote) :
    (∃ inner, Writes quote s.toList inner) ∧
    ∀ inner, Writes quote s.toList inner →
      Lexeme.split (quote :: (inner ++ [quote])) =
        .ok [⟨.constant (.string s), 0, byteLength (quote :: (inner ++ [quote]))⟩] ∧
      parse (String.ofList (quote :: (inner ++ [quote]))) = .ok (.constant (.string s)) := by
  refine ⟨⟨_, writes_escape quote s.toList⟩, fun inner hwrites => ?_⟩
  have hspells := hwrites.spells hquote
  rw [String.ofList_toList] at hspells
  have hsplit := hspells.split
  refine ⟨hsplit, ?_⟩
  rw [parse, String.toList_ofList, hsplit]
  exact ofLexemes_eq_ok.mpr ⟨.constant (.string s), .operand (.operand (.operand (.operand
    (.constant _)))), rfl, Phrase.fitsAt_constant.mpr (Nat.zero_le _), rfl⟩

/-- A backslash, both quotes, a line feed and a letter of two bytes, of which the line feed is written by
its letter. -/
theorem parse_of_writes_mixed :
    IsQuote '\'' ∧
      Writes '\'' "\\\"'\né".toList "\\\\\"\\'\\né".toList ∧
      Lexeme.split "'\\\\\"\\'\\né'".toList =
        .ok [⟨.constant (.string "\\\"'\né"), 0, 11⟩] ∧
      parse "'\\\\\"\\'\\né'" = .ok (.constant (.string "\\\"'\né")) := by
  have hquote : IsQuote '\'' := .inr rfl
  have hwrites : Writes '\'' "\\\"'\né".toList "\\\\\"\\'\\né".toList :=
    .escaped (.inl rfl) <| .plain (by decide) (by decide) <| .escaped (.inr rfl) <| .letter .feed <|
      .plain (by decide) (by decide) .nil
  obtain ⟨hsplit, hparse⟩ := (parse_of_writes "\\\"'\né" hquote).2 _ hwrites
  exact ⟨hquote, hwrites, hsplit, hparse⟩

end Condition
end FeatureStyle
