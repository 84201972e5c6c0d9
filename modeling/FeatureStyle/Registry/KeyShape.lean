import FeatureStyle.Text.Quoted

/-!
# The shape of keys

Keys are texts of a fixed length over an alphabet. A shape is accepted if its alphabet has at least
sixteen distinct ASCII symbols and its keys have at least eight of them, so that there are at least
`2 ^ 32` keys.
-/

namespace FeatureStyle

structure Key where
  text : String
deriving DecidableEq

namespace KeyShape

def leastSymbols : Nat := 16

def leastLength : Nat := 8

def standardAlphabet : String := "ABCDEFGHIJKLMNOPQRSTUVWXYZabcdefghijklmnopqrstuvwxyz0123456789-_"

def standardLength : Nat := 21

end KeyShape

structure KeyShape where
  alphabet : List Char
  length : Nat
  ascii : ∀ c ∈ alphabet, c.toNat < 128
  nodup : alphabet.Nodup
  leastSymbols_le : KeyShape.leastSymbols ≤ alphabet.length
  leastLength_le : KeyShape.leastLength ≤ length

/-- Why an alphabet and a length make no shape. -/
inductive KeyShapeError
  | notAscii (symbol : Char)
  | repeatedSymbol (symbol : Char)
  | tooFewSymbols (size : Nat)
  | tooShort (length : Nat)
deriving DecidableEq

namespace KeyShapeError

def label : KeyShapeError → String
  | notAscii _ => "NonAsciiSymbol"
  | repeatedSymbol _ => "DuplicateSymbol"
  | tooFewSymbols _ => "AlphabetTooSmall"
  | tooShort _ => "KeyTooShort"

def message : KeyShapeError → String
  | notAscii symbol => "key alphabet symbol " ++ Text.quoteChar symbol ++ " is not ASCII"
  | repeatedSymbol symbol => "key alphabet repeats symbol " ++ Text.quoteChar symbol
  | tooFewSymbols size =>
    s!"key alphabet has {size} symbols, at least {KeyShape.leastSymbols} required"
  | tooShort length => s!"key length {length} is below the minimum of {KeyShape.leastLength}"

end KeyShapeError

namespace KeyShape

/-- The error of the first symbol that is not ASCII or that was seen before. -/
def symbolError? (seen : List Char) : List Char → Option KeyShapeError
  | [] => none
  | c :: symbols =>
    if 128 ≤ c.toNat then some (.notAscii c)
    else if c ∈ seen then some (.repeatedSymbol c)
    else symbolError? (c :: seen) symbols

theorem symbolError?_eq_none_iff (seen symbols : List Char) :
    symbolError? seen symbols = none ↔
      (∀ c ∈ symbols, c.toNat < 128) ∧ symbols.Nodup ∧ ∀ c ∈ symbols, c ∉ seen := by
  induction symbols generalizing seen with
  | nil => simp [symbolError?]
  | cons c symbols ih =>
    rw [symbolError?]
    split
    · rename_i h
      simp only [reduceCtorEq, false_iff, not_and]
      intro hascii
      exact absurd (hascii c List.mem_cons_self) (by omega)
    · split
      · rename_i hmem
        simp only [reduceCtorEq, false_iff, not_and]
        intro _ _ hnew
        exact hnew c List.mem_cons_self hmem
      · rename_i hascii hnew
        rw [ih]
        simp only [List.mem_cons, List.nodup_cons, not_or, forall_eq_or_imp]
        constructor
        · rintro ⟨h1, h2, h3⟩
          exact ⟨⟨by omega, h1⟩, ⟨fun h => (h3 c h).1 rfl, h2⟩, hnew, fun d hd => (h3 d hd).2⟩
        · rintro ⟨⟨_, h1⟩, ⟨h2, h3⟩, _, h4⟩
          exact ⟨h1, h3, fun d hd => ⟨fun h => h2 (h ▸ hd), h4 d hd⟩⟩

/-- The shape with the given alphabet and length, if it is accepted. Symbols are judged before the
size of the alphabet, and that before the length. -/
def make (alphabet : String) (length : Nat) : Except KeyShapeError KeyShape :=
  match h : symbolError? [] alphabet.toList with
  | some e => .error e
  | none =>
    if hsize : alphabet.toList.length < leastSymbols then
      .error (.tooFewSymbols alphabet.toList.length)
    else if hlength : length < leastLength then .error (.tooShort length)
    else
      have hsymbols := (symbolError?_eq_none_iff _ _).mp h
      .ok ⟨alphabet.toList, length, hsymbols.1, hsymbols.2.1, by omega, by omega⟩

/-- The byte of a character that has one of its own. -/
def byte? (c : Char) : Option UInt8 := if c.toNat < 256 then some (.ofNat c.toNat) else none

/-- Judges symbols with a table of flags, one for each ASCII character, that says which of them were
seen. There is no answer if a byte has no flag in the table. -/
def judge? (seen : Vector Bool 128) : List Char → Option (Option KeyShapeError)
  | [] => some none
  | c :: symbols =>
    match (byte? c).filter (· < 128) with
    | none => some (some (.notAscii c))
    | some byte =>
      match seen[byte.toNat]? with
      | none => none
      | some true => some (some (.repeatedSymbol c))
      | some false => judge? (seen.setIfInBounds byte.toNat true) symbols

/-- The alphabet and the length of a shape, or what is wrong with them, judged with a table of flags and
by the size of the alphabet in bytes. -/
def judgeAll? (alphabet : String) (length : Nat) : Option (Except KeyShapeError (List Char × Nat)) :=
  match judge? (Vector.replicate 128 false) alphabet.toList with
  | none => none
  | some (some e) => some (.error e)
  | some none =>
    if alphabet.utf8ByteSize < leastSymbols then some (.error (.tooFewSymbols alphabet.utf8ByteSize))
    else if length < leastLength then some (.error (.tooShort length))
    else some (.ok (alphabet.toList, length))

theorem symbolError?_standardAlphabet : symbolError? [] standardAlphabet.toList = none := by
  decide +kernel

/-- The shape used where none is given. -/
def standard : KeyShape where
  alphabet := standardAlphabet.toList
  length := standardLength
  ascii := ((symbolError?_eq_none_iff _ _).mp symbolError?_standardAlphabet).1
  nodup := ((symbolError?_eq_none_iff _ _).mp symbolError?_standardAlphabet).2.1
  leastSymbols_le := by decide
  leastLength_le := by decide

/-- Whether a key has the length of this shape and only symbols of its alphabet. -/
def admits (shape : KeyShape) (key : Key) : Bool :=
  key.text.toList.length == shape.length && key.text.toList.all fun c => shape.alphabet.contains c

end KeyShape
end FeatureStyle
