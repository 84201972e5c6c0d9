import FeatureStyle.Proofs.Condition.Splitting
import FeatureStyle.Registry.KeyShape

/-!
# Which alphabets and lengths make a shape

An alphabet is judged symbol by symbol up to the first one that is wrong, and only then by its size, and
the length comes last. Judging with a table of flags instead of a list of symbols, and with the size in
bytes, gives the same answer, and never looks anything up outside the table. The main statement is
`KeyShape.make_validates`.
-/

namespace FeatureStyle.KeyShape

structure Distinct (symbols : List Char) : Prop where
  ascii : ∀ c ∈ symbols, c.toNat < 128
  nodup : symbols.Nodup

/-- An alphabet and a length that make a shape. -/
structure Acceptable (alphabet : String) (length : Nat) : Prop where
  symbols : Distinct alphabet.toList
  enough : 16 ≤ alphabet.toList.length
  long : 8 ≤ length

def Acceptable.shape {alphabet : String} {length : Nat} (h : Acceptable alphabet length) : KeyShape :=
  ⟨alphabet.toList, length, h.symbols.ascii, h.symbols.nodup, h.enough, h.long⟩

/-- What is wrong with an alphabet and a length. A symbol is wrong if it is not ASCII or stands in front
of itself, where all the symbols in front are as they should be; the size of the alphabet is wrong only
if no symbol is, and the length only if nothing else is. -/
inductive Rejects (alphabet : String) (length : Nat) : KeyShapeError → Prop
  | notAscii {before behind : List Char} {c : Char} :
    alphabet.toList = before ++ c :: behind → Distinct before → 128 ≤ c.toNat →
      Rejects alphabet length (.notAscii c)
  | repeatedSymbol {before behind : List Char} {c : Char} :
    alphabet.toList = before ++ c :: behind → Distinct before → c ∈ before →
      Rejects alphabet length (.repeatedSymbol c)
  | tooFewSymbols : Distinct alphabet.toList → alphabet.toList.length < 16 →
    Rejects alphabet length (.tooFewSymbols alphabet.toList.length)
  | tooShort : Distinct alphabet.toList → 16 ≤ alphabet.toList.length → length < 8 →
    Rejects alphabet length (.tooShort length)

variable {alphabet : String} {length : Nat} {symbols before behind : List Char} {c : Char}
  {e : KeyShapeError}

private theorem symbolError?_eq_none : symbolError? [] symbols = none ↔ Distinct symbols := by
  rw [symbolError?_eq_none_iff]
  constructor
  · rintro ⟨hascii, hnodup, -⟩
    exact ⟨hascii, hnodup⟩
  · rintro ⟨hascii, hnodup⟩
    exact ⟨hascii, hnodup, by simp⟩

section Symbols

private theorem symbolError?_append (seen : List Char) (h : symbolError? seen before = none)
    (behind : List Char) :
    symbolError? seen (before ++ behind) = symbolError? (before.reverse ++ seen) behind := by
  induction before generalizing seen with
  | nil => rfl
  | cons c before ih =>
    rw [symbolError?] at h
    split at h
    · cases h
    · split at h
      · cases h
      · rename_i hascii hnew
        rw [List.cons_append, symbolError?, if_neg hascii, if_neg hnew, ih _ h]
        simp

/-- The first symbol that is wrong, behind symbols that are not. -/
theorem split_of_symbolError? {seen : List Char} (h : symbolError? seen symbols = some e) :
    ∃ before c behind, symbols = before ++ c :: behind ∧ symbolError? seen before = none ∧
      (128 ≤ c.toNat ∧ e = .notAscii c ∨
        c.toNat < 128 ∧ (c ∈ before ∨ c ∈ seen) ∧ e = .repeatedSymbol c) := by
  induction symbols generalizing seen with
  | nil => cases h
  | cons c symbols ih =>
    rw [symbolError?] at h
    split at h
    · rename_i hascii
      cases h
      exact ⟨[], c, symbols, rfl, rfl, .inl ⟨hascii, rfl⟩⟩
    · rename_i hascii
      split at h
      · rename_i hseen
        cases h
        exact ⟨[], c, symbols, rfl, rfl, .inr ⟨Nat.lt_of_not_le hascii, .inr hseen, rfl⟩⟩
      · rename_i hnew
        obtain ⟨before, d, behind, rfl, hbefore, hd⟩ := ih h
        refine ⟨c :: before, d, behind, rfl, ?_, ?_⟩
        · rw [symbolError?, if_neg hascii, if_neg hnew, hbefore]
        · rcases hd with hd | ⟨hd, hmem, rfl⟩
          · exact .inl hd
          · refine .inr ⟨hd, ?_, rfl⟩
            rw [List.mem_cons] at hmem ⊢
            tauto

private theorem symbolError?_of_notAscii (h : Distinct before) (hc : 128 ≤ c.toNat) :
    symbolError? [] (before ++ c :: behind) = some (.notAscii c) := by
  rw [symbolError?_append [] (symbolError?_eq_none.mpr h), symbolError?, if_pos hc]

private theorem symbolError?_of_mem (h : Distinct before) (hc : c ∈ before) :
    symbolError? [] (before ++ c :: behind) = some (.repeatedSymbol c) := by
  have hascii : ¬ 128 ≤ c.toNat := Nat.not_le_of_lt (h.ascii c hc)
  rw [symbolError?_append [] (symbolError?_eq_none.mpr h), symbolError?, if_neg hascii, if_pos]
  simpa using hc

end Symbols

section Make

private theorem make_of_symbolError? (h : symbolError? [] alphabet.toList = some e) :
    make alphabet length = .error e := by
  rw [make]
  split
  · rename_i e' h'
    rw [Option.some.inj (h.symm.trans h')]
  · rename_i h'
    rw [h'] at h
    cases h

private theorem make_of_few (h : Distinct alphabet.toList) (hfew : alphabet.toList.length < 16) :
    make alphabet length = .error (.tooFewSymbols alphabet.toList.length) := by
  rw [make]
  split
  · rename_i e' h'
    rw [symbolError?_eq_none.mpr h] at h'
    cases h'
  · have hsize : alphabet.toList.length < leastSymbols := hfew
    rw [dif_pos hsize]

private theorem make_of_short (h : Distinct alphabet.toList) (henough : 16 ≤ alphabet.toList.length)
    (hshort : length < 8) : make alphabet length = .error (.tooShort length) := by
  rw [make]
  split
  · rename_i e' h'
    rw [symbolError?_eq_none.mpr h] at h'
    cases h'
  · have hsize : ¬ alphabet.toList.length < leastSymbols := Nat.not_lt_of_le henough
    have hlength : length < leastLength := hshort
    rw [dif_neg hsize, dif_pos hlength]

private theorem make_of_acceptable (h : Acceptable alphabet length) :
    make alphabet length = .ok h.shape := by
  rw [make]
  split
  · rename_i e' h'
    rw [symbolError?_eq_none.mpr h.symbols] at h'
    cases h'
  · have hsize : ¬ alphabet.toList.length < leastSymbols := Nat.not_lt_of_le h.enough
    have hlength : ¬ length < leastLength := Nat.not_lt_of_le h.long
    rw [dif_neg hsize, dif_neg hlength]
    rfl

private theorem make_of_rejects (h : Rejects alphabet length e) :
    make alphabet length = .error e := by
  cases h with
  | notAscii hsplit hbefore hc =>
    exact make_of_symbolError? (hsplit ▸ symbolError?_of_notAscii hbefore hc)
  | repeatedSymbol hsplit hbefore hc =>
    exact make_of_symbolError? (hsplit ▸ symbolError?_of_mem hbefore hc)
  | tooFewSymbols hsymbols hfew => exact make_of_few hsymbols hfew
  | tooShort hsymbols henough hshort => exact make_of_short hsymbols henough hshort

theorem acceptable_or_rejects (alphabet : String) (length : Nat) :
    Acceptable alphabet length ∨ ∃ e, Rejects alphabet length e := by
  cases hsymbols : symbolError? [] alphabet.toList with
  | some e =>
    obtain ⟨before, c, behind, hsplit, hbefore, ⟨hc, rfl⟩ | ⟨-, hc, rfl⟩⟩ :=
      split_of_symbolError? hsymbols
    · exact .inr ⟨_, .notAscii hsplit (symbolError?_eq_none.mp hbefore) hc⟩
    · exact .inr ⟨_, .repeatedSymbol hsplit (symbolError?_eq_none.mp hbefore) (by simpa using hc)⟩
  | none =>
    have hdistinct := symbolError?_eq_none.mp hsymbols
    by_cases henough : 16 ≤ alphabet.toList.length
    · by_cases hlong : 8 ≤ length
      · exact .inl ⟨hdistinct, henough, hlong⟩
      · exact .inr ⟨_, .tooShort hdistinct henough (Nat.lt_of_not_le hlong)⟩
    · exact .inr ⟨_, .tooFewSymbols hdistinct (Nat.lt_of_not_le henough)⟩

private theorem make_eq_error_iff :
    make alphabet length = .error e ↔ Rejects alphabet length e := by
  refine ⟨fun h => ?_, make_of_rejects⟩
  rcases acceptable_or_rejects alphabet length with haccept | ⟨e', hreject⟩
  · rw [make_of_acceptable haccept] at h
    cases h
  · rw [make_of_rejects hreject] at h
    cases h
    exact hreject

private theorem Acceptable.not_rejects (h : Acceptable alphabet length) :
    ¬ Rejects alphabet length e := by
  rw [← make_eq_error_iff, make_of_acceptable h]
  simp

end Make

section Table

/-- The flags that are set are those of the symbols in a list. -/
def Flags (seen : Vector Bool 128) (symbols : List Char) : Prop :=
  ∀ c : Char, c.toNat < 128 → seen[c.toNat]? = some (decide (c ∈ symbols))

private theorem flags_nil : Flags (Vector.replicate 128 false) [] := by
  intro c hc
  rw [Vector.getElem?_eq_getElem hc, Vector.getElem_replicate]
  simp

private theorem Flags.cons {seen : Vector Bool 128} (h : Flags seen symbols) (hc : c.toNat < 128) :
    Flags (seen.setIfInBounds c.toNat true) (c :: symbols) := by
  intro d hd
  rw [Vector.getElem?_setIfInBounds]
  split
  · rename_i heq
    simp [Char.toNat_inj.mp heq]
  · rename_i hne
    have hdc : d ≠ c := fun heq => hne (heq ▸ rfl)
    simp [h d hd, hdc]

private theorem byte?_ascii (hc : c.toNat < 128) :
    ∃ byte : UInt8, (byte? c).filter (· < 128) = some byte ∧ byte.toNat = c.toNat := by
  have hbyte : (UInt8.ofNat c.toNat).toNat = c.toNat :=
    UInt8.toNat_ofNat_of_lt' (Nat.lt_trans hc (by decide))
  refine ⟨.ofNat c.toNat, ?_, hbyte⟩
  rw [byte?, if_pos (Nat.lt_trans hc (by decide)), Option.filter_some, if_pos]
  rw [decide_eq_true_eq, UInt8.lt_iff_toNat_lt, hbyte]
  exact hc

private theorem byte?_notAscii (hc : 128 ≤ c.toNat) : (byte? c).filter (· < 128) = none := by
  rw [byte?]
  split
  · rename_i hlt
    rw [Option.filter_some, if_neg]
    rw [decide_eq_true_eq, UInt8.lt_iff_toNat_lt, UInt8.toNat_ofNat_of_lt' hlt]
    exact Nat.not_lt_of_le hc
  · rfl

/-- Every look-up is in the table, and finds what the list of symbols says. -/
theorem judge?_eq {seen : Vector Bool 128} {before : List Char} (h : Flags seen before)
    (symbols : List Char) : judge? seen symbols = some (symbolError? before symbols) := by
  induction symbols generalizing seen before with
  | nil => rfl
  | cons c symbols ih =>
    rw [judge?, symbolError?]
    by_cases hc : 128 ≤ c.toNat
    · rw [byte?_notAscii hc, if_pos hc]
    · have hascii := Nat.lt_of_not_le hc
      obtain ⟨byte, hbyte, hnat⟩ := byte?_ascii hascii
      rw [if_neg hc, hbyte]
      simp only [hnat, h c hascii]
      by_cases hmem : c ∈ before
      · simp only [hmem, decide_true, ↓reduceIte]
      · simp only [hmem, decide_false, ↓reduceIte]
        exact ih (h.cons hascii)

private theorem utf8ByteSize_of_ascii (h : ∀ c ∈ alphabet.toList, c.toNat < 128) :
    alphabet.utf8ByteSize = alphabet.toList.length := by
  rw [← byteLength_toList]
  generalize alphabet.toList = symbols at h
  induction symbols with
  | nil => rfl
  | cons c symbols ih =>
    rw [List.forall_mem_cons] at h
    have hsize : c.utf8Size = 1 :=
      Char.utf8Size_eq_one_iff.mpr (UInt32.le_iff_toNat_le.mpr (Nat.le_of_lt_succ h.1))
    rw [byteLength, hsize, ih h.2, List.length_cons, Nat.add_comm]

private theorem judgeAll?_eq (alphabet : String) (length : Nat) :
    judgeAll? alphabet length =
      some ((make alphabet length).map fun shape => (shape.alphabet, shape.length)) := by
  rw [judgeAll?, judge?_eq flags_nil]
  cases hsymbols : symbolError? [] alphabet.toList with
  | some e =>
    rw [make_of_symbolError? hsymbols]
    rfl
  | none =>
    have hdistinct := symbolError?_eq_none.mp hsymbols
    simp only [utf8ByteSize_of_ascii hdistinct.ascii]
    by_cases hfew : alphabet.toList.length < leastSymbols
    · rw [make_of_few hdistinct hfew, if_pos hfew]
      rfl
    · have henough := Nat.le_of_not_lt hfew
      rw [if_neg hfew]
      by_cases hshort : length < leastLength
      · rw [make_of_short hdistinct henough hshort, if_pos hshort]
        rfl
      · have haccept : Acceptable alphabet length := ⟨hdistinct, henough, Nat.le_of_not_lt hshort⟩
        rw [make_of_acceptable haccept, if_neg hshort]
        rfl

end Table

/-- An alphabet and a length make a shape, and make the one that has them, exactly if they are
acceptable; otherwise the first thing that is wrong is reported. The table of flags gives the same
answer for all of them, so that there always is one. -/
theorem make_validates (alphabet : String) (length : Nat) :
    ((∃ shape, make alphabet length = .ok shape ∧ shape.alphabet = alphabet.toList ∧
        shape.length = length) ↔ Acceptable alphabet length) ∧
      ((∃ e, make alphabet length = .error e) ↔ ¬ Acceptable alphabet length) ∧
      (∀ e, make alphabet length = .error e ↔ Rejects alphabet length e) ∧
      judgeAll? alphabet length =
        some ((make alphabet length).map fun shape => (shape.alphabet, shape.length)) := by
  have herror : (∃ e, make alphabet length = .error e) ↔ ¬ Acceptable alphabet length := by
    simp only [make_eq_error_iff]
    constructor
    · rintro ⟨e, hreject⟩ haccept
      exact haccept.not_rejects hreject
    · exact (acceptable_or_rejects alphabet length).resolve_left
  refine ⟨⟨?_, fun h => ⟨_, make_of_acceptable h, rfl, rfl⟩⟩, herror,
    fun e => make_eq_error_iff, judgeAll?_eq alphabet length⟩
  rintro ⟨shape, hmake, -, -⟩
  by_contra haccept
  obtain ⟨e, hmake'⟩ := herror.mpr haccept
  rw [hmake'] at hmake
  cases hmake

/-- The second `f` comes before the size of the alphabet and before the length. -/
example : judgeAll? "0123456789abcdeff" 3 = some (.error (.repeatedSymbol 'f')) := by
  decide +kernel

end FeatureStyle.KeyShape
