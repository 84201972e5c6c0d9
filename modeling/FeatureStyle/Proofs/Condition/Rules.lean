import FeatureStyle.Proofs.Condition.Spelling
import FeatureStyle.Proofs.Numeral.Scanning

/-!
# The rules of tokens

What can spell a token, and that the piece at the head of a text is always a spelling by these rules.
What spells a token is the piece again wherever a separator or the end of the text follows. The main
statements are `takes_piece` and `Spells.piece_append`.
-/

namespace FeatureStyle.Lexeme

/-- The inside of a string: any characters but the quote and the backslash, and any character but the
line feed behind a backslash. -/
inductive Inside (quote : Char) : List Char → Prop
  | nil : Inside quote []
  | plain {c : Char} {text : List Char} : c ≠ '\\' → c ≠ quote → Inside quote text →
    Inside quote (c :: text)
  | escaped {c : Char} {text : List Char} : c ≠ '\n' → Inside quote text →
    Inside quote ('\\' :: c :: text)

inductive IsSymbol : String → Token → Prop
  | identical : IsSymbol "===" (.binary .eq)
  | equal : IsSymbol "==" (.binary .eq)
  | notIdentical : IsSymbol "!==" (.binary .ne)
  | notEqual : IsSymbol "!=" (.binary .ne)
  | not : IsSymbol "!" .not
  | le : IsSymbol "<=" (.binary .le)
  | lt : IsSymbol "<" (.binary .lt)
  | ge : IsSymbol ">=" (.binary .ge)
  | gt : IsSymbol ">" (.binary .gt)
  | and : IsSymbol "&&" (.binary .and)
  | or : IsSymbol "||" (.binary .or)
  | minus : IsSymbol "-" .minus
  | plus : IsSymbol "+" .plus
  | openParen : IsSymbol "(" .openParen
  | closeParen : IsSymbol ")" .closeParen

/-- A text spells a token. -/
inductive Spells : List Char → Token → Prop
  | numeral {text : List Char} {d : Decimal} : Numeral.Spells text d →
    Spells text (.constant (.number (d.toDouble false)))
  | string {quote : Char} {inner : List Char} : IsQuote quote → Inside quote inner →
    Spells (quote :: (inner ++ [quote])) (.constant (.string (String.ofList (decodeEscapes inner))))
  | property {inner : List Char} {name : String} : '\x7d' ∉ inner →
    Text.propertyName? inner = some name →
    Spells ('$' :: '\x7b' :: (inner ++ ['\x7d'])) (.property name)
  | word {word : String} {value : Scalar} : IsWord word value → Spells word.toList (.constant value)
  | symbol {symbol : String} {token : Token} : IsSymbol symbol token → Spells symbol.toList token

variable {text rest spelling inner : List Char} {token : Token} {quote : Char}

section Strings

private theorem inside_splitString (quote : Char) (text : List Char) :
    Inside quote (splitString quote text).1 := by
  fun_induction splitString quote text with
  | case1 | case2 | case3 | case5 => exact .nil
  | case4 c text hc inner rest hsplit ih =>
    rw [hsplit] at ih
    exact .escaped hc ih
  | case6 c text hlast hescape hquote inner rest hsplit ih =>
    have hc : c ≠ '\\' := by
      intro hc
      cases text with
      | nil => exact hlast hc rfl
      | cons next text => exact hescape next text hc rfl
    rw [hsplit] at ih
    exact .plain hc hquote ih

private theorem Inside.splitString (h : Inside quote inner) (hquote : IsQuote quote)
    (rest : List Char) :
    splitString quote (inner ++ quote :: rest) = (inner, quote :: rest) := by
  have hbackslash : quote ≠ '\\' := by rcases hquote with rfl | rfl <;> decide
  induction h with
  | nil => simp [Lexeme.splitString, hbackslash]
  | plain hc hne h ih => simp [Lexeme.splitString, hc, hne, ih]
  | escaped hc h ih => simp [Lexeme.splitString, hc, ih]

theorem Inside.stringPiece (h : Inside quote inner) (hquote : IsQuote quote) (rest : List Char) :
    stringPiece quote (inner ++ quote :: rest) =
      .ofToken (.constant (.string (String.ofList (decodeEscapes inner)))) (inner.length + 2) := by
  simp [Lexeme.stringPiece, h.splitString hquote]

/-- What a piece takes of a text is a spelling of its token. -/
def Takes (text : List Char) (found : Piece) : Prop :=
  ∀ token n, found = .ofToken token n →
    ∃ spelling rest, text = spelling ++ rest ∧ spelling.length = n ∧ Spells spelling token

private theorem takes_stringPiece (hquote : IsQuote quote) (text : List Char) :
    Takes (quote :: text) (stringPiece quote text) := by
  intro token n h
  have htext := splitString_append quote text
  have hinside := inside_splitString quote text
  unfold stringPiece at h
  split at h
  rename_i inner rest hsplit
  rw [hsplit] at htext hinside
  split at h
  · rename_i c tail
    split at h
    · rename_i hc
      cases h
      refine ⟨quote :: (inner ++ [quote]), tail, ?_, by simp, .string hquote hinside⟩
      rw [← htext, hc]
      simp
    · cases h
  · cases h

end Strings

private theorem takes_placeholderPiece (text : List Char) :
    Takes ('$' :: '\x7b' :: text) (placeholderPiece text) := by
  intro token n h
  unfold placeholderPiece at h
  split at h
  · cases h
  · rename_i inner rest hsplit
    obtain ⟨rfl, hunclosed⟩ := Text.splitClosing?_eq_some_iff.mp hsplit
    split at h
    · rename_i name hname
      cases h
      exact ⟨'$' :: '\x7b' :: (inner ++ ['\x7d']), rest, by simp, by simp,
        .property hunclosed hname⟩
    · cases h

private theorem takes_numberPiece (text : List Char) : Takes text (numberPiece text) := by
  intro token n h
  unfold numberPiece at h
  split at h
  · rename_i d rest hscan
    obtain ⟨numeral, rfl, hnumeral⟩ := Numeral.spells_of_scan? hscan
    cases h
    exact ⟨numeral, rest, rfl, by simp, .numeral hnumeral⟩
  · cases h

/-- The piece at the head of a text is a spelling of its token. -/
theorem takes_piece (text : List Char) : Takes text (piece text) := by
  have hword : ∀ {word : String} {value : Scalar} (rest : List Char), IsWord word value →
      Takes (word.toList ++ rest) (.ofToken (.constant value) word.toList.length) := by
    intro word value rest hword token n h
    cases h
    exact ⟨_, rest, rfl, rfl, .word hword⟩
  have hsymbol : ∀ {symbol : String} {token : Token} (rest : List Char), IsSymbol symbol token →
      Takes (symbol.toList ++ rest) (.ofToken token symbol.toList.length) := by
    intro symbol token rest hsymbol token' n h
    cases h
    exact ⟨_, rest, rfl, rfl, .symbol hsymbol⟩
  fun_cases piece text
  · exact takes_stringPiece (.inl rfl) _
  · exact takes_stringPiece (.inr rfl) _
  · exact takes_placeholderPiece _
  · exact hword _ .true
  · exact hword _ .false
  · exact hword _ .null
  · exact hword _ .undefined
  · exact hsymbol _ .identical
  · exact hsymbol _ .equal
  · exact hsymbol _ .notIdentical
  · exact hsymbol _ .notEqual
  · exact hsymbol _ .not
  · exact hsymbol _ .le
  · exact hsymbol _ .lt
  · exact hsymbol _ .ge
  · exact hsymbol _ .gt
  · exact hsymbol _ .and
  · exact hsymbol _ .or
  · exact hsymbol _ .minus
  · exact hsymbol _ .plus
  · exact hsymbol _ .openParen
  · exact hsymbol _ .closeParen
  · exact takes_numberPiece _

/-- A text is empty or begins with a separator. -/
def Ended (rest : List Char) : Prop := ∀ c tail, rest = c :: tail → isSeparator c = true

theorem isSeparator_iff {c : Char} :
    isSeparator c = true ↔ c = ' ' ∨ c = '\t' ∨ c = '\r' ∨ c = '\n' ∨ c = '\x0c' := by
  simp [isSeparator, or_assoc]

private theorem Ended.ends (h : Ended rest) : Numeral.Ends rest := by
  intro c tail heq
  rcases isSeparator_iff.mp (h c tail heq) with rfl | rfl | rfl | rfl | rfl <;> decide

private theorem IsSymbol.piece_append {symbol : String} (h : IsSymbol symbol token)
    (hrest : Ended rest) :
    piece (symbol.toList ++ rest) = .ofToken token symbol.toList.length := by
  cases rest with
  | nil => cases h <;> rfl
  | cons c tail =>
    -- The signs that go on with `=` and those that do not are told apart by the separator.
    rcases isSeparator_iff.mp (hrest c tail rfl) with rfl | rfl | rfl | rfl | rfl <;> cases h <;> rfl

theorem Spells.piece_append (h : Spells spelling token) (hrest : Ended rest) :
    piece (spelling ++ rest) = .ofToken token spelling.length := by
  cases h with
  | numeral h =>
    obtain ⟨c, tail, rfl, hc⟩ := h.head
    rw [List.cons_append, piece_of_digit hc, ← List.cons_append, numberPiece,
      h.scan?_append hrest.ends]
    simp only [List.length_append, Nat.add_sub_cancel]
  | @string quote inner hquote hinside =>
    have hpiece : piece (quote :: (inner ++ quote :: rest)) =
        stringPiece quote (inner ++ quote :: rest) := by
      rcases hquote with rfl | rfl <;> rfl
    simpa [hpiece] using hinside.stringPiece hquote rest
  | @property inner name hunclosed hname =>
    have hsplit : Text.splitClosing? (inner ++ '\x7d' :: rest) = some (inner, rest) :=
      Text.splitClosing?_eq_some_iff.mpr ⟨rfl, hunclosed⟩
    simp [piece, placeholderPiece, hsplit, hname]
  | word h => cases h <;> rfl
  | symbol h => exact h.piece_append hrest

theorem Spells.head (h : Spells spelling token) :
    ∃ c tail, spelling = c :: tail ∧ isSeparator c = false := by
  cases h with
  | numeral h =>
    obtain ⟨c, tail, rfl, hc⟩ := h.head
    exact ⟨c, tail, rfl, isSeparator_of_digit hc⟩
  | string hquote hinside =>
    refine ⟨_, _, rfl, ?_⟩
    rcases hquote with rfl | rfl <;> rfl
  | property hunclosed hname => exact ⟨_, _, rfl, rfl⟩
  | word h => cases h <;> exact ⟨_, _, rfl, rfl⟩
  | symbol h => cases h <;> exact ⟨_, _, rfl, rfl⟩

theorem Spells.numeral_of_number {x : Double} (h : Spells text (.constant (.number x))) :
    ∃ d, Numeral.Spells text d ∧ x = d.toDouble false := by
  generalize htoken : Token.constant (.number x) = token at h
  cases h with
  | numeral h =>
    cases htoken
    exact ⟨_, h, rfl⟩
  | word h => cases h <;> cases htoken
  | symbol h => cases h <;> cases htoken
  | string | property => cases htoken

theorem Spells.eq_sign (h : Spells text token) :
    (token = .minus → text = ['-']) ∧ (token = .plus → text = ['+']) := by
  cases h with
  | symbol h => cases h <;> simp
  | _ => simp

end FeatureStyle.Lexeme
