import FeatureStyle.Proofs.Condition.Quotation
import FeatureStyle.Proofs.Condition.Tower

/-!
# Writing conditions

A condition is written with parentheses around every binary operator and nowhere else. The text is
split into the tokens of a phrase that stands for the condition; the phrase is nested at most twice as
deeply as the condition is high, so that every condition of less than half the height that may be nested
is read back. The main statement is `Condition.parse_render`.
-/

namespace FeatureStyle

/-- A decimal is the size of a number, or one that rounds to it. -/
def Decimal.Denotes (d : Decimal) (x : Double) : Prop :=
  d.value = x.size ∨ d.magnitude = x.magnitude

private theorem Decimal.Denotes.toDouble {d : Decimal} {x : Double} (h : d.Denotes x)
    (hx : x.isFinite = true) : d.toDouble false = ⟨false, x.magnitude⟩ := by
  have hmagnitude : d.magnitude = x.magnitude := h.elim (magnitude_of_value_eq hx) id
  have hle : x.magnitude.val ≤ Double.infinityMagnitude := Nat.le_of_lt (of_decide_eq_true hx)
  rw [Decimal.toDouble, Double.ofMagnitude]
  simp only [hmagnitude, Nat.min_eq_left hle]

namespace Condition

/-- How the numbers and strings of a condition are written. -/
structure Style where
  /-- The numeral of a number, whatever its sign. -/
  numeral : Double → List Char
  /-- The quote around a string. -/
  quote : String → Char
  spells_numeral : ∀ x : Double, x.isFinite = true →
    ∃ d : Decimal, Numeral.Spells (numeral x) d ∧ d.Denotes x
  isQuote_quote : ∀ s, Lexeme.IsQuote (quote s)

/-- Numbers with all their digits and strings in double quotes. -/
def Style.exact : Style where
  numeral := Numeral.exact
  quote _ := '\"'
  spells_numeral x _ := ⟨x.exactDecimal, Numeral.spells_exact x, .inl (Decimal.value_exactDecimal x)⟩
  isQuote_quote _ := .inl rfl

namespace Style

def constant (style : Style) : Scalar → List Char
  | .undefined => "undefined".toList
  | .null => "null".toList
  | .bool true => "true".toList
  | .bool false => "false".toList
  | .number x => if x.negative then '-' :: style.numeral x else style.numeral x
  | .string s => Lexeme.quoted (style.quote s) s

def text (style : Style) : Condition → List Char
  | .constant value => style.constant value
  | .property name => Lexeme.placeholder name
  | .not part => '!' :: style.text part
  | .minus part => '-' :: style.text part
  | .binary op lhs rhs =>
    '(' :: (style.text lhs ++ ' ' :: (op.symbol.toList ++ ' ' :: (style.text rhs ++ [')'])))

def render (style : Style) (condition : Condition) : String := String.ofList (style.text condition)

end Style

/-- The conditions that can be written: names fit into a placeholder, numbers are finite, and no minus
has a number as its operand, since the text of a number takes in a minus in front of it. -/
inductive Writable : Condition → Prop
  | constant {value : Scalar} : (∀ x, value = .number x → x.isFinite = true) →
    Writable (constant value)
  | property {name : String} : Lexeme.IsName name → Writable (property name)
  | not {part : Condition} : Writable part → Writable (not part)
  | minus {part : Condition} : Writable part → (∀ x, part ≠ .constant (.number x)) →
    Writable (minus part)
  | binary {op : Operator} {lhs rhs : Condition} : Writable lhs → Writable rhs →
    Writable (binary op lhs rhs)

def written : Condition → Phrase
  | constant (.number x) =>
    if x.negative then .signed .minus (.constant (.number (-x))) else .constant (.number x)
  | constant value => .constant value
  | property name => .property name
  | not part => .signed .not part.written
  | minus part => .signed .minus part.written
  | binary op lhs rhs => .group (.link op lhs.written rhs.written)

private theorem withMinus_eq {part : Condition} (h : ∀ x, part ≠ constant (.number x)) :
    withMinus part = minus part := by
  rw [withMinus.eq_def]
  split
  · rename_i x
    exact absurd rfl (h x)
  · rfl

private theorem written_constant (value : Scalar) :
    written (constant value) = .constant value ∨
      ∃ x : Double, value = .number x ∧
        written (constant value) = .signed .minus (.constant (.number (-x))) := by
  cases value with
  | number x =>
    rw [written]
    split
    · exact .inr ⟨x, rfl, rfl⟩
    · exact .inl rfl
  | undefined | null | bool b | string s => exact .inl rfl

private theorem Writable.condition_written {c : Condition} (h : c.Writable) :
    c.written.condition = c := by
  induction h with
  | @constant value hvalue =>
    rcases written_constant value with hwritten | ⟨x, rfl, hwritten⟩ <;> rw [hwritten]
    · rfl
    · obtain ⟨negative, magnitude⟩ := x
      cases negative <;> rfl
  | property hname => rfl
  | not h ih => rw [written, Phrase.condition, ih, Sign.apply]
  | minus h hne ih => rw [written, Phrase.condition, ih, Sign.apply, withMinus_eq hne]
  | binary hl hr ihl ihr => rw [written, Phrase.condition, Phrase.condition, ihl, ihr]

section Nesting

private theorem derives_written (c : Condition) : c.written.Derives none := by
  induction c with
  | constant value =>
    rcases written_constant value with hwritten | ⟨x, -, hwritten⟩ <;> rw [hwritten]
    · exact .constant value
    · exact .signed .minus (.constant _)
  | property name => exact .property name
  | not part ih => exact .signed .not ih
  | minus part ih => exact .signed .minus ih
  | binary op lhs rhs ihl ihr =>
    have hlink : (Phrase.link op lhs.written rhs.written).Derives (some op.precedence) :=
      .link rfl (ihl.of_none _) (ihr.of_none _)
    exact .group hlink.loosen

/-- Every binary operator goes two levels deeper, with its parenthesis and to its right operand. The
last level is for the sign of a number. -/
theorem fitsAt_written {c : Condition} {depth : Nat} (h : depth + 2 * c.height + 1 ≤ nestingLimit) :
    c.written.FitsAt depth := by
  induction c generalizing depth with
  | constant value =>
    rcases written_constant value with hwritten | ⟨x, -, hwritten⟩ <;> rw [hwritten]
    · exact Phrase.fitsAt_constant.mpr (by omega)
    · exact Phrase.fitsAt_signed.mpr (Phrase.fitsAt_constant.mpr (by omega))
  | property name => exact Phrase.fitsAt_property.mpr (by omega)
  | not part ih | minus part ih =>
    rw [height] at h
    exact Phrase.fitsAt_signed.mpr (ih (by omega))
  | binary op lhs rhs ihl ihr =>
    rw [height] at h
    have hlinks : lhs.written.links op.precedence = 0 := by
      apply (derives_written lhs).links_eq_zero
      exact Nat.lt_succ_of_le (strength_le op.precedence)
    rw [written, Phrase.fitsAt_group, Phrase.fitsAt_link, hlinks]
    exact ⟨ihl (by omega), ihr (by omega)⟩

end Nesting

section Text

variable (style : Style) {rest : List Char} {tokens : List Token}

private theorem splits_constant {value : Scalar}
    (hvalue : ∀ x, value = .number x → x.isFinite = true)
    (h : Lexeme.Splits rest tokens) (hrest : Numeral.Ends rest) :
    Lexeme.Splits (style.constant value ++ rest) ((written (constant value)).tokens ++ tokens) := by
  cases value with
  | undefined => exact h.word .undefined
  | null => exact h.word .null
  | bool b =>
    cases b with
    | true => exact h.word .true
    | false => exact h.word .false
  | string s => exact h.string (style.isQuote_quote s) s
  | number x =>
    have hx := hvalue x rfl
    obtain ⟨d, hspells, hdenotes⟩ := style.spells_numeral x hx
    have hnumeral := h.numeral hspells hrest
    rw [hdenotes.toDouble hx] at hnumeral
    obtain ⟨negative, magnitude⟩ := x
    cases negative with
    | true => exact hnumeral.symbol rfl rfl
    | false => exact hnumeral

private theorem text_append_ne {c : Condition} (h : c.Writable) (tail : List Char) :
    style.text c ++ rest ≠ '=' :: tail := by
  have hhead : ∃ first others, style.text c = first :: others ∧ first ≠ '=' := by
    cases h with
    | @constant value hvalue =>
      cases value with
      | undefined | null => exact ⟨_, _, rfl, by decide⟩
      | bool b => cases b <;> exact ⟨_, _, rfl, by decide⟩
      | string s =>
        refine ⟨_, _, rfl, ?_⟩
        rcases style.isQuote_quote s with h | h <;> rw [h] <;> decide
      | number x =>
        obtain ⟨d, hspells, -⟩ := style.spells_numeral x (hvalue x rfl)
        obtain ⟨first, others, hnumeral, hfirst⟩ := hspells.head
        have hne : first ≠ '=' := by
          rintro rfl
          exact absurd hfirst (by decide)
        by_cases hsign : x.negative = true
        · exact ⟨'-', style.numeral x, if_pos hsign, by decide⟩
        · exact ⟨first, others, (if_neg hsign).trans hnumeral, hne⟩
    | property hname => exact ⟨_, _, rfl, by decide⟩
    | not h => exact ⟨_, _, rfl, by decide⟩
    | minus h hne => exact ⟨_, _, rfl, by decide⟩
    | binary hl hr => exact ⟨_, _, rfl, by decide⟩
  obtain ⟨first, others, htext, hne⟩ := hhead
  rw [htext, List.cons_append]
  intro heq
  exact hne (List.cons.inj heq).1

/-- A condition is split into the tokens of its phrase in front of any text that does not go on with a
numeral. -/
theorem splits_text {c : Condition} (hc : c.Writable) (h : Lexeme.Splits rest tokens)
    (hrest : Numeral.Ends rest) :
    Lexeme.Splits (style.text c ++ rest) (c.written.tokens ++ tokens) := by
  have hends : ∀ {c : Char} {text : List Char}, c = ' ' ∨ c = ')' → Numeral.Ends (c :: text) := by
    intro c text hc c' tail heq
    cases heq
    rcases hc with rfl | rfl <;> decide
  induction hc generalizing rest tokens with
  | constant hvalue => exact splits_constant style hvalue h hrest
  | property hname => exact h.property hname
  | not hpart ih => exact (ih h hrest).not (text_append_ne style hpart)
  | minus hpart hne ih => exact (ih h hrest).symbol rfl rfl
  | @binary op lhs rhs hl hr ihl ihr =>
    have hclose : Lexeme.Splits (')' :: rest) (.closeParen :: tokens) := h.symbol rfl rfl
    have hoperator := (ihr hclose (hends (.inr rfl))).operator op
    have hopen := (ihl hoperator.blank (hends (.inl rfl))).symbol (c := '(') rfl rfl
    simpa [Style.text, written, Phrase.tokens] using hopen

end Text

/-- Every condition of less than half the height that may be nested is read back as it was written. -/
theorem parse_render (style : Style) {c : Condition} (hwritable : c.Writable)
    (hheight : c.height < nestingLimit / 2) : parse (style.render c) = .ok c := by
  have hlimit : nestingLimit = 128 := rfl
  have hfits : c.written.FitsAt 0 := fitsAt_written (by omega)
  have hsplits := splits_text style hwritable Lexeme.splits_nil Numeral.ends_nil
  rw [List.append_nil, List.append_nil] at hsplits
  have hspelled : c.written.Spelled (style.render c) := by
    refine ⟨(derives_written c).of_none _, ?_⟩
    rw [Style.render, String.toList_ofList]
    exact hsplits _ 0 (Nat.le_refl _)
  exact parse_eq_ok_iff.mpr ⟨c.written, hspelled, hfits, hwritable.condition_written⟩

theorem parse_render_mixed :
    let c : Condition := binary .or (not (property "road class"))
      (minus (binary .lt (constant (.number ⟨true, 0x3FF8000000000000⟩))
        (constant (.string "a\"b\\"))))
    c.Writable ∧ c.height < nestingLimit / 2 ∧ parse (Style.exact.render c) = .ok c := by
  intro c
  have hname : Lexeme.IsName "road class" := by
    refine ⟨by decide, by decide, fun last hlast => ?_⟩
    cases hlast
    decide
  have hnumber : (constant (.number ⟨true, 0x3FF8000000000000⟩)).Writable := by
    refine .constant fun x hx => ?_
    cases hx
    decide
  have hstring : (constant (.string "a\"b\\")).Writable := .constant fun x hx => by cases hx
  have hwritable : c.Writable :=
    .binary (.not (.property hname)) (.minus (.binary hnumber hstring) fun x hx => by cases hx)
  have hheight : c.height < nestingLimit / 2 := by decide
  exact ⟨hwritable, hheight, parse_render Style.exact hwritable hheight⟩

example : Style.exact.render (binary .or (not (property "road class")) (minus (constant .null))) =
    "(!$\x7bfeature.property.road class\x7d || -null)" := by decide

end Condition
end FeatureStyle
