import FeatureStyle.Proofs.Condition.Nesting
import FeatureStyle.Proofs.Condition.Spelling

/-!
# The highest parsed conditions

A group of chains of all levels, with as many operators as may be nested, is the first operand of
the chains around it. What is built up this way is as high as a parsed condition can be.
-/

namespace FeatureStyle

/-- A spelling of the tokens that are enough for the highest conditions, with a blank behind. -/
def Token.spelling : Token → List Char
  | .constant (.bool true) => ['t', 'r', 'u', 'e', ' ']
  | .not => ['!', ' ']
  | .openParen => ['(', ' ']
  | .closeParen => [')', ' ']
  | .binary op => op.symbol.toList ++ [' ']
  | _ => []

private theorem Lexeme.Splits.spelling {text : List Char} {tokens : List Token}
    (h : Lexeme.Splits text tokens) (t : Token) (ht : t.spelling ≠ []) :
    Lexeme.Splits (t.spelling ++ text) (t :: tokens) := by
  cases t with
  | not =>
    have hblank : ∀ tail, ' ' :: text ≠ '=' :: tail := fun tail heq => by cases heq
    exact h.blank.not hblank
  | openParen => exact h.blank.symbol (c := '(') rfl rfl
  | closeParen => exact h.blank.symbol (c := ')') rfl rfl
  | binary op =>
    rw [Token.spelling, List.append_assoc]
    exact h.operator op
  | minus | plus | property _ => exact absurd rfl ht
  | constant value =>
    cases value with
    | bool b =>
      cases b with
      | true => exact h.blank.word .true
      | false => exact absurd rfl ht
    | undefined | null | number _ | string _ => exact absurd rfl ht

private theorem splits_spelling {tokens : List Token} (h : ∀ t ∈ tokens, t.spelling ≠ []) :
    Lexeme.Splits (tokens.flatMap Token.spelling) tokens := by
  induction tokens with
  | nil => exact Lexeme.splits_nil
  | cons t tokens ih =>
    rw [List.forall_mem_cons] at h
    rw [List.flatMap_cons]
    exact (ih h.2).spelling t h.1

namespace Phrase

/-- The phrase that goes on with as many operators as given. -/
def prolonged (op : Operator) : Nat → Phrase → Phrase
  | 0, p => p
  | n + 1, p => link op (prolonged op n p) (constant (.bool true))

/-- The phrase that goes on with as many operators as given on every level. -/
def spread (n : Nat) (p : Phrase) : Phrase :=
  prolonged .or n (prolonged .and n (prolonged .eq n (prolonged .lt n p)))

/-- A highest operand for the given levels of nesting. -/
def tower : Nat → Phrase
  | 0 => constant (.bool true)
  | 1 => signed .not (constant (.bool true))
  | n + 2 => group (spread (n + 1) (tower (n + 1)))

theorem Derives.of_none {p : Phrase} (h : p.Derives none) :
    ∀ rank : Option Precedence, p.Derives rank := by
  have hrel : p.Derives (some .relational) := .operand h
  have heq : p.Derives (some .equality) := .operand hrel
  have hand : p.Derives (some .and) := .operand heq
  intro rank
  rcases rank with _ | _ | _ | _ | _
  · exact h
  · exact .operand hand
  · exact hand
  · exact heq
  · exact hrel

private theorem derives_prolonged (op : Operator) {p : Phrase} (h : p.Derives (some op.precedence))
    (n : Nat) : (prolonged op n p).Derives (some op.precedence) := by
  induction n with
  | zero => exact h
  | succ n ih => exact .link rfl ih ((Derives.constant _).of_none _)

private theorem links_prolonged {op : Operator} {p : Phrase} (h : p.links op.precedence = 0)
    (n : Nat) :
    (prolonged op n p).links op.precedence = n := by
  induction n with
  | zero => exact h
  | succ n ih => rw [prolonged, links, if_pos rfl, ih]

private theorem fitsAt_prolonged {op : Operator} {p : Phrase} (h : p.links op.precedence = 0)
    {depth n : Nat}
    (hp : p.FitsAt depth) (hn : depth + n ≤ Condition.nestingLimit) :
    (prolonged op n p).FitsAt depth := by
  induction n with
  | zero => exact hp
  | succ n ih =>
    rw [prolonged, fitsAt_link, links_prolonged h, fitsAt_constant]
    exact ⟨ih (by omega), by omega⟩

private theorem height_prolonged (op : Operator) (p : Phrase) (n : Nat) :
    (prolonged op n p).condition.height = p.condition.height + n := by
  induction n with
  | zero => rfl
  | succ n ih =>
    simp only [prolonged, condition, Condition.height, ih]
    omega

private theorem derives_spread {p : Phrase} (h : p.Derives none) (n : Nat) :
    (spread n p).Derives (some .or) := by
  have hlt := derives_prolonged .lt (h.of_none _) n
  have heq := derives_prolonged .eq (.operand hlt) n
  have hand := derives_prolonged .and (.operand heq) n
  exact derives_prolonged .or (.operand hand) n

private theorem fitsAt_spread {p : Phrase} (h : p.Derives none) {depth n : Nat}
    (hp : p.FitsAt depth)
    (hn : depth + n ≤ Condition.nestingLimit) : (spread n p).FitsAt depth := by
  have hlt := derives_prolonged .lt (h.of_none _) n
  have heq := derives_prolonged .eq (.operand hlt) n
  have hand := derives_prolonged .and (.operand heq) n
  refine fitsAt_prolonged (hand.links_eq_zero (by decide)) ?_ hn
  refine fitsAt_prolonged (heq.links_eq_zero (by decide)) ?_ hn
  refine fitsAt_prolonged (hlt.links_eq_zero (by decide)) ?_ hn
  exact fitsAt_prolonged (h.links_eq_zero (by decide)) hp hn

private theorem height_spread (p : Phrase) (n : Nat) :
    (spread n p).condition.height = p.condition.height + 4 * n := by
  simp only [spread, height_prolonged]
  omega

private theorem derives_tower (n : Nat) : (tower n).Derives none := by
  match n with
  | 0 => exact .constant _
  | 1 => exact .signed .not (.constant _)
  | n + 2 => exact .group (derives_spread (derives_tower (n + 1)) (n + 1))

private theorem fitsAt_tower {depth n : Nat} (h : depth + n ≤ Condition.nestingLimit) :
    (tower n).FitsAt depth := by
  match n with
  | 0 => exact fitsAt_constant.mpr h
  | 1 => exact fitsAt_signed.mpr (fitsAt_constant.mpr h)
  | n + 2 =>
    have hroom : depth + 1 + (n + 1) ≤ Condition.nestingLimit := by omega
    exact fitsAt_group.mpr (fitsAt_spread (derives_tower _) (fitsAt_tower hroom) hroom)

private theorem height_tower (n : Nat) : (tower n).condition.height = signedHeight n := by
  match n with
  | 0 => rfl
  | 1 => rfl
  | n + 2 =>
    rw [tower, condition, height_spread, height_tower (n + 1), signedHeight]

def Spellable (p : Phrase) : Prop := ∀ t ∈ p.tokens, t.spelling ≠ []

private theorem spellable_true : (constant (.bool true)).Spellable := by
  intro t ht
  rw [List.mem_singleton.mp ht]
  exact List.cons_ne_nil _ _

private theorem Spellable.prolonged {p : Phrase} (h : p.Spellable) (op : Operator) (n : Nat) :
    (prolonged op n p).Spellable := by
  induction n with
  | zero => exact h
  | succ n ih =>
    intro t ht
    rcases List.mem_append.mp ht with hl | hr
    · exact ih t hl
    rcases List.mem_cons.mp hr with rfl | hr
    · exact List.append_ne_nil_of_right_ne_nil _ (List.cons_ne_nil _ _)
    · exact spellable_true t hr

private theorem Spellable.spread {p : Phrase} (h : p.Spellable) (n : Nat) :
    (spread n p).Spellable :=
  (((h.prolonged .lt n).prolonged .eq n).prolonged .and n).prolonged .or n

private theorem spellable_tower (n : Nat) : (tower n).Spellable := by
  match n with
  | 0 => exact spellable_true
  | 1 =>
    intro t ht
    rcases List.mem_cons.mp ht with rfl | ht
    · exact List.cons_ne_nil _ _
    · exact spellable_true t ht
  | n + 2 =>
    intro t ht
    rcases List.mem_append.mp ht with hl | hr
    · rcases List.mem_cons.mp hl with rfl | hl
      · exact List.cons_ne_nil _ _
      · exact (spellable_tower (n + 1)).spread (n + 1) t hl
    · rw [List.mem_singleton.mp hr]
      exact List.cons_ne_nil _ _

private theorem Spellable.exists_spelled {p : Phrase} (h : p.Spellable)
    (hp : p.Derives (some .or)) :
    ∃ source, p.Spelled source := by
  obtain ⟨lexemes, hsplit, htokens⟩ := splits_spelling h _ 0 (Nat.le_refl _)
  refine ⟨String.ofList (p.tokens.flatMap Token.spelling), hp, lexemes, ?_, htokens⟩
  rw [String.toList_ofList]
  exact hsplit

end Phrase

/-- The bound on the height of parsed conditions is attained. -/
theorem Condition.exists_parse_height_eq :
    ∃ source condition, parse source = .ok condition ∧ condition.height = heightBound := by
  let p := Phrase.spread nestingLimit (Phrase.tower nestingLimit)
  have hspellable : p.Spellable := (Phrase.spellable_tower nestingLimit).spread nestingLimit
  obtain ⟨source, hsource⟩ :=
    hspellable.exists_spelled (Phrase.derives_spread (Phrase.derives_tower _) _)
  have hfits : p.FitsAt 0 := by
    have hroom : 0 + nestingLimit ≤ nestingLimit := Nat.le_of_eq (Nat.zero_add _)
    exact Phrase.fitsAt_spread (Phrase.derives_tower _) (Phrase.fitsAt_tower hroom) hroom
  refine ⟨source, p.condition, parse_eq_ok_iff.mpr ⟨p, hsource, hfits, rfl⟩, ?_⟩
  rw [Phrase.height_spread, Phrase.height_tower, show nestingLimit = 127 + 1 from rfl,
    Phrase.signedHeight_succ]
  rfl

end FeatureStyle
