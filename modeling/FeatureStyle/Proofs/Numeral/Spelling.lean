import FeatureStyle.Numeral.Scan
import FeatureStyle.Proofs.Numeral.Exact

/-!
# Spellings of decimals

The grammar of numerals, and that a numeral at the head of a text is scanned as a whole and as the
decimal it spells, unless the text goes on with more of a numeral. The main statement is
`Spells.scan?_append`.
-/

namespace FeatureStyle.Numeral

def AllDigits (text : List Char) : Prop := ∀ c ∈ text, c.isDigit = true

/-- What a number has besides digits. -/
def marks : List Char := ['.', 'e', 'E', '+', '-']

/-- Digits with an optional decimal point, at least one of them: the text, the digits before the point
and those behind it. -/
inductive Mantissa : List Char → List Char → List Char → Prop
  | whole {whole : List Char} : AllDigits whole → whole ≠ [] → Mantissa whole whole []
  | pointed {whole fraction : List Char} : AllDigits whole → AllDigits fraction →
    whole ++ fraction ≠ [] → Mantissa (whole ++ '.' :: fraction) whole fraction

inductive Exponent : List Char → Int → Prop
  | none : Exponent [] 0
  | unsigned {mark : Char} {digits : List Char} : mark = 'e' ∨ mark = 'E' → AllDigits digits →
    digits ≠ [] → Exponent (mark :: digits) (digitsValue digits)
  | plus {mark : Char} {digits : List Char} : mark = 'e' ∨ mark = 'E' → AllDigits digits →
    digits ≠ [] → Exponent (mark :: '+' :: digits) (digitsValue digits)
  | minus {mark : Char} {digits : List Char} : mark = 'e' ∨ mark = 'E' → AllDigits digits →
    digits ≠ [] → Exponent (mark :: '-' :: digits) (-digitsValue digits)

/-- A numeral spells a decimal. -/
def Spells (text : List Char) (d : Decimal) : Prop :=
  ∃ mantissa exponent whole fraction power, text = mantissa ++ exponent ∧
    Mantissa mantissa whole fraction ∧ Exponent exponent power ∧
    d = ⟨digitsValue (whole ++ fraction), power - fraction.length⟩

def Ends (rest : List Char) : Prop :=
  ∀ c tail, rest = c :: tail → c.isDigit = false ∧ c ≠ '.' ∧ c ≠ 'e' ∧ c ≠ 'E'

variable {text rest digits : List Char} {d : Decimal}

theorem ends_nil : Ends [] := by
  intro c tail h
  cases h

private theorem takeWhile_digits (hdigits : AllDigits digits) (rest : List Char)
    (hrest : ∀ c tail, rest = c :: tail → c.isDigit = false) :
    (digits ++ rest).takeWhile Char.isDigit = digits ∧
      (digits ++ rest).dropWhile Char.isDigit = rest := by
  rw [List.takeWhile_append_of_pos hdigits, List.dropWhile_append_of_pos hdigits]
  cases rest with
  | nil => simp
  | cons c tail => simp [hrest c tail rfl]

private theorem Mantissa.scan {mantissa whole fraction : List Char}
    (h : Mantissa mantissa whole fraction)
    (hrest : ∀ c tail, rest = c :: tail → c.isDigit = false ∧ c ≠ '.') :
    scanMantissa (mantissa ++ rest) = (whole, fraction, rest) := by
  cases h with
  | whole hdigits hne =>
    obtain ⟨htake, hdrop⟩ := takeWhile_digits hdigits rest fun c tail h => (hrest c tail h).1
    rw [scanMantissa, htake, hdrop]
    split
    · rename_i tail
      exact absurd rfl (hrest '.' tail rfl).2
    · rfl
  | pointed hwhole hfraction hne =>
    obtain ⟨htake, hdrop⟩ := takeWhile_digits hwhole ('.' :: fraction ++ rest)
      (by simp +contextual [eq_comm])
    obtain ⟨htake', hdrop'⟩ := takeWhile_digits hfraction rest fun c tail h => (hrest c tail h).1
    rw [List.append_assoc, scanMantissa, htake, hdrop]
    simp [htake', hdrop']

private theorem scanSign_digits (hdigits : AllDigits digits) (hne : digits ≠ []) :
    scanSign (digits ++ rest) = (false, digits ++ rest) := by
  cases digits with
  | nil => exact absurd rfl hne
  | cons c digits =>
    have hc := hdigits c List.mem_cons_self
    rw [List.cons_append, scanSign.eq_def]
    split
    · rename_i heq
      cases heq
      exact absurd hc (by decide)
    · rename_i heq
      cases heq
      exact absurd hc (by decide)
    · rfl

private theorem Exponent.scan {exponent : List Char} {power : Int} (h : Exponent exponent power)
    (hrest : Ends rest) : scanExponent (exponent ++ rest) = (power, rest) := by
  have hdigits : ∀ {digits : List Char}, AllDigits digits → digits ≠ [] →
      (digits ++ rest).takeWhile Char.isDigit = digits ∧
        (digits ++ rest).dropWhile Char.isDigit = rest ∧ digits.isEmpty = false := by
    intro digits hdigits hne
    obtain ⟨htake, hdrop⟩ := takeWhile_digits hdigits rest fun c tail h => (hrest c tail h).1
    exact ⟨htake, hdrop, by simpa using hne⟩
  cases h with
  | none =>
    cases hrest' : rest with
    | nil => rfl
    | cons c tail =>
      obtain ⟨-, -, hlower, hupper⟩ := hrest c tail hrest'
      simp [scanExponent, hlower, hupper]
  | @unsigned mark digits hmark hall hne =>
    obtain ⟨htake, hdrop, hempty⟩ := hdigits hall hne
    simp [scanExponent, hmark, scanSign_digits hall hne, htake, hdrop, hempty]
  | plus hmark hall hne =>
    obtain ⟨htake, hdrop, hempty⟩ := hdigits hall hne
    simp [scanExponent, hmark, scanSign, htake, hdrop, hempty]
  | minus hmark hall hne =>
    obtain ⟨htake, hdrop, hempty⟩ := hdigits hall hne
    simp [scanExponent, hmark, scanSign, htake, hdrop, hempty]

private theorem Mantissa.ne_nil {mantissa whole fraction : List Char}
    (h : Mantissa mantissa whole fraction) :
    whole ++ fraction ≠ [] := by
  cases h with
  | whole hdigits hne => simpa using hne
  | pointed hwhole hfraction hne => exact hne

private theorem Exponent.head {exponent : List Char} {power : Int} (h : Exponent exponent power)
    (hrest : Ends rest) (c : Char) (tail : List Char) (heq : exponent ++ rest = c :: tail) :
    c.isDigit = false ∧ c ≠ '.' := by
  have hmark : ∀ {mark : Char}, mark = 'e' ∨ mark = 'E' → mark.isDigit = false ∧ mark ≠ '.' := by
    rintro mark (rfl | rfl) <;> decide
  cases h with
  | none => exact ⟨(hrest c tail heq).1, (hrest c tail heq).2.1⟩
  | unsigned h | plus h | minus h =>
    cases heq
    exact hmark h

/-- A numeral is scanned as a whole and as the decimal it spells. -/
theorem Spells.scan?_append (h : Spells text d) (hrest : Ends rest) :
    scan? (text ++ rest) = some (d, rest) := by
  obtain ⟨mantissa, exponent, whole, fraction, power, rfl, hmantissa, hexponent, rfl⟩ := h
  have hne : ¬ (whole = [] ∧ fraction = []) := by simpa using hmantissa.ne_nil
  rw [List.append_assoc, scan?, hmantissa.scan (hexponent.head hrest)]
  simp [hexponent.scan hrest, hne]

theorem Spells.head (h : Spells text d) :
    ∃ c tail, text = c :: tail ∧ (c.isDigit = true ∨ c = '.') := by
  obtain ⟨mantissa, exponent, whole, fraction, power, rfl, hmantissa, -, -⟩ := h
  have hwhole : ∀ {digits rest : List Char}, AllDigits digits → digits ≠ [] →
      ∃ c tail, digits ++ rest = c :: tail ∧ (c.isDigit = true ∨ c = '.') := by
    intro digits rest hdigits hne
    cases digits with
    | nil => exact absurd rfl hne
    | cons c digits => exact ⟨c, digits ++ rest, rfl, .inl (hdigits c List.mem_cons_self)⟩
  cases hmantissa with
  | whole hdigits hne => exact hwhole hdigits hne
  | pointed hdigits hfraction hne =>
    by_cases hempty : whole = []
    · exact ⟨'.', fraction ++ exponent, by simp [hempty], .inr rfl⟩
    · rw [List.append_assoc]
      exact hwhole hdigits hempty

theorem Spells.isDigit_or_mark (h : Spells text d) : ∀ c ∈ text, c.isDigit = true ∨ c ∈ marks := by
  obtain ⟨mantissa, exponent, whole, fraction, power, rfl, hmantissa, hexponent, -⟩ := h
  have hdigits : ∀ {digits : List Char}, AllDigits digits →
      ∀ c ∈ digits, c.isDigit = true ∨ c ∈ marks := fun h c hc => .inl (h c hc)
  have hmark : ∀ {mark : Char}, mark = 'e' ∨ mark = 'E' → mark.isDigit = true ∨ mark ∈ marks := by
    rintro mark (rfl | rfl) <;> exact .inr (by decide)
  have hpoint : '.'.isDigit = true ∨ '.' ∈ marks := .inr (by decide)
  rw [List.forall_mem_append]
  constructor
  · cases hmantissa with
    | whole hall hne => exact hdigits hall
    | pointed hwhole hfraction hne =>
      rw [List.forall_mem_append, List.forall_mem_cons]
      exact ⟨hdigits hwhole, hpoint, hdigits hfraction⟩
  · cases hexponent with
    | none => simp
    | unsigned h hall hne => exact List.forall_mem_cons.mpr ⟨hmark h, hdigits hall⟩
    | plus h hall hne | minus h hall hne =>
      rw [List.forall_mem_cons, List.forall_mem_cons]
      exact ⟨hmark h, .inr (by decide), hdigits hall⟩

theorem allDigits_toDigits (n : Nat) : AllDigits (Nat.toDigits 10 n) := fun _ =>
  Nat.isDigit_of_mem_toDigits (by omega) (by omega)

theorem digitsValue_toDigits (n : Nat) : digitsValue (Nat.toDigits 10 n) = n :=
  Nat.ofDigitChars_toDigits (by omega) (by omega)

/-- All digits of the exact expansion of a number, and their power of ten. -/
def exact (x : Double) : List Char :=
  Nat.toDigits 10 x.exactDecimal.digits ++ ['e', '-', '1', '0', '7', '4']

theorem spells_exact (x : Double) : Spells (exact x) x.exactDecimal := by
  have hwhole := allDigits_toDigits x.exactDecimal.digits
  have hpower : AllDigits ['1', '0', '7', '4'] := by
    simp only [AllDigits, List.forall_mem_cons, List.not_mem_nil, false_implies, implies_true]
    decide
  refine ⟨_, _, _, _, _, rfl, .whole hwhole Nat.toDigits_ne_nil,
    .minus (.inl rfl) hpower (List.cons_ne_nil _ _), ?_⟩
  rw [List.append_nil, digitsValue_toDigits]
  rfl

end FeatureStyle.Numeral
