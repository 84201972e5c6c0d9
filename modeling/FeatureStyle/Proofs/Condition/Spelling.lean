import FeatureStyle.Condition.Lexeme
import FeatureStyle.Proofs.Numeral.Spelling

/-!
# Spellings of tokens

What a text is split into, piece by piece from its end: each lemma puts one spelling in front of a text
whose tokens are known. A numeral has to end where the rest begins, and `!` must not run into `=`.
-/

namespace FeatureStyle.Lexeme

/-- A text is split into lexemes with these tokens, wherever it stands. -/
def Splits (text : List Char) (tokens : List Token) : Prop :=
  ∀ fuel start, text.length ≤ fuel →
    ∃ lexemes, splitAt fuel start text = .ok lexemes ∧ lexemes.map Lexeme.token = tokens

variable {text rest spelling : List Char} {token : Token} {tokens : List Token} {quote : Char}

theorem splits_nil : Splits [] [] := by
  intro fuel start _
  refine ⟨[], ?_, rfl⟩
  cases fuel <;> rfl

theorem Splits.blank (h : Splits rest tokens) : Splits (' ' :: rest) tokens := by
  intro fuel start hfuel
  cases fuel with
  | zero => cases hfuel
  | succ fuel =>
    obtain ⟨lexemes, hsplit, htokens⟩ := h fuel (start + ' '.utf8Size) (by simpa using hfuel)
    exact ⟨lexemes, hsplit, htokens⟩

/-- A spelling is split off if it is the piece at the head of the text and begins with no separator. -/
theorem Splits.piece (h : Splits rest tokens) (hne : spelling ≠ [])
    (hseparator : ∀ c tail, spelling = c :: tail → isSeparator c = false)
    (hpiece : Lexeme.piece (spelling ++ rest) = .ofToken token spelling.length) :
    Splits (spelling ++ rest) (token :: tokens) := by
  intro fuel start hfuel
  obtain ⟨c, tail, rfl⟩ := List.exists_cons_of_ne_nil hne
  have hc := hseparator c tail rfl
  cases fuel with
  | zero => cases hfuel
  | succ fuel =>
    simp only [List.cons_append, List.length_cons, List.length_append] at hfuel
    rw [List.cons_append] at hpiece ⊢
    have hdrop : (c :: (tail ++ rest)).drop (c :: tail).length = rest := by simp
    rw [splitAt, if_neg (by simp [hc]), hpiece]
    simp only [Piece.ofToken, hdrop]
    obtain ⟨lexemes, hsplit, htokens⟩ := h fuel
      (start + byteLength ((c :: (tail ++ rest)).take (c :: tail).length)) (by omega)
    rw [hsplit]
    exact ⟨_, rfl, by rw [List.map_cons, htokens]⟩

section Numerals

theorem piece_of_digit {c : Char} (hc : c.isDigit = true ∨ c = '.') (text : List Char) :
    piece (c :: text) = numberPiece (c :: text) := by
  rw [piece.eq_def]
  split
  all_goals first
    | rfl
    | rename_i heq
      cases heq
      exact absurd hc (by decide)

theorem isSeparator_of_digit {c : Char} (hc : c.isDigit = true ∨ c = '.') :
    isSeparator c = false := by
  by_contra hseparator
  simp only [isSeparator, Bool.not_eq_false, Bool.or_eq_true, decide_eq_true_eq] at hseparator
  rcases hseparator with (((rfl | rfl) | rfl) | rfl) | rfl <;> exact absurd hc (by decide)

theorem Splits.numeral {d : Decimal} (h : Splits rest tokens) (htext : Numeral.Spells text d)
    (hrest : Numeral.Ends rest) :
    Splits (text ++ rest) (.constant (.number (d.toDouble false)) :: tokens) := by
  obtain ⟨c, tail, rfl, hc⟩ := htext.head
  apply h.piece (List.cons_ne_nil _ _)
  · intro c' tail' heq
    cases heq
    exact isSeparator_of_digit hc
  · have hlength : (c :: tail ++ rest).length - rest.length = (c :: tail).length := by
      rw [List.length_append, Nat.add_sub_cancel]
    rw [List.cons_append, piece_of_digit hc, ← List.cons_append, numberPiece,
      htext.scan?_append hrest]
    simp only [hlength]

end Numerals

section Strings

/-- A text with a backslash in front of every backslash and of every quote. -/
def escape (quote : Char) (text : List Char) : List Char :=
  text.flatMap fun c => if c = '\\' ∨ c = quote then ['\\', c] else [c]

def IsQuote (quote : Char) : Prop := quote = '\"' ∨ quote = '\''

def quoted (quote : Char) (s : String) : List Char := quote :: (escape quote s.toList ++ [quote])

end Strings

section Properties

/-- The names that a placeholder can hold. -/
structure IsName (name : String) : Prop where
  nonempty : name ≠ ""
  unclosed : '\x7d' ∉ name.toList
  unblank : ∀ c, name.toList.getLast? = some c → Text.isBlank c = false

private theorem IsName.toList_ne_nil {name : String} (h : IsName name) : name.toList ≠ [] := by
  intro hnil
  exact h.nonempty (String.toList_eq_nil_iff.mp hnil)

theorem trim_name {name : String} (h : IsName name) :
    Text.trim (Text.propertyPrefix ++ name.toList) = Text.propertyPrefix ++ name.toList := by
  have hdrop : (Text.propertyPrefix ++ name.toList).dropWhile Text.isBlank =
      Text.propertyPrefix ++ name.toList := by
    rw [show Text.propertyPrefix = 'f' :: "eature.property.".toList from rfl, List.cons_append]
    exact List.dropWhile_cons_of_neg (by decide)
  obtain ⟨init, last, hlast⟩ := (List.eq_nil_or_concat' name.toList).resolve_left h.toList_ne_nil
  have hblank : Text.isBlank last = false := h.unblank last (by simp [hlast])
  rw [Text.trim, hdrop, hlast, ← List.append_assoc, Text.trimEnd, List.reverse_concat,
    List.dropWhile_cons_of_neg (by simp [hblank]), List.reverse_cons, List.reverse_reverse]

private theorem propertyName?_name {name : String} (h : IsName name) :
    Text.propertyName? (Text.propertyPrefix ++ name.toList) = some name := by
  rw [Text.propertyName?, trim_name h, Text.dropExact?_eq_some_iff.mpr rfl]
  split
  · rename_i c tail heq
    rw [← Option.some.inj heq, String.ofList_toList]
  · rename_i hnone
    obtain ⟨c, tail, hname⟩ := List.exists_cons_of_ne_nil h.toList_ne_nil
    exact absurd (congrArg some hname) (hnone c tail)

def placeholder (name : String) : List Char :=
  '$' :: '\x7b' :: (Text.propertyPrefix ++ name.toList ++ ['\x7d'])

theorem Splits.property (h : Splits rest tokens) {name : String} (hname : IsName name) :
    Splits (placeholder name ++ rest) (.property name :: tokens) := by
  have hunclosed : '\x7d' ∉ Text.propertyPrefix ++ name.toList := by
    rw [List.mem_append]
    exact not_or.mpr ⟨by decide, hname.unclosed⟩
  have hne : placeholder name ≠ [] := List.cons_ne_nil _ _
  apply h.piece hne
  · intro c tail heq
    cases heq
    decide
  · have htext : placeholder name ++ rest =
        '$' :: '\x7b' :: (Text.propertyPrefix ++ name.toList ++ '\x7d' :: rest) := by
      simp [placeholder]
    have hlength : (Text.propertyPrefix ++ name.toList).length + 3 = (placeholder name).length := by
      simp [placeholder]
      omega
    rw [htext, ← hlength, Lexeme.piece, placeholderPiece,
      Text.splitClosing?_eq_some_iff.mpr ⟨rfl, hunclosed⟩]
    simp only [propertyName?_name hname]

end Properties

section Symbols

inductive IsWord : String → Scalar → Prop
  | undefined : IsWord "undefined" .undefined
  | null : IsWord "null" .null
  | true : IsWord "true" (.bool Bool.true)
  | false : IsWord "false" (.bool Bool.false)

theorem Splits.word (h : Splits rest tokens) {word : String} {value : Scalar}
    (hword : IsWord word value) : Splits (word.toList ++ rest) (.constant value :: tokens) := by
  cases hword
  all_goals
    apply h.piece (List.cons_ne_nil _ _)
    · intro c tail heq
      cases heq
      rfl
    · rfl

theorem Splits.operator (h : Splits rest tokens) (op : Operator) :
    Splits (op.symbol.toList ++ ' ' :: rest) (.binary op :: tokens) := by
  cases op
  all_goals
    apply h.blank.piece (List.cons_ne_nil _ _)
    · intro c tail heq
      cases heq
      rfl
    · rfl

theorem Splits.symbol (h : Splits rest tokens) {c : Char} (hc : isSeparator c = false)
    (hpiece : Lexeme.piece (c :: rest) = .ofToken token 1) : Splits (c :: rest) (token :: tokens) := by
  rw [← List.singleton_append]
  apply h.piece (List.cons_ne_nil _ _)
  · intro c' tail heq
    cases heq
    exact hc
  · exact hpiece

theorem Splits.not (h : Splits rest tokens) (hrest : ∀ tail, rest ≠ '=' :: tail) :
    Splits ('!' :: rest) (.not :: tokens) := by
  apply h.symbol rfl
  cases rest with
  | nil => rfl
  | cons c tail =>
    have hc : c ≠ '=' := fun hc => hrest tail (by rw [hc])
    simp [Lexeme.piece, hc]

end Symbols
end FeatureStyle.Lexeme
