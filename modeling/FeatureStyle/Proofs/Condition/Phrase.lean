import FeatureStyle.Condition.Parsing

/-!
# Phrases

A phrase is a condition as it was written: with its parentheses, with the signs that leave no mark
in the condition, and with the chains of operators that tell how it was grouped.
-/

namespace FeatureStyle

namespace Precedence

def strength : Precedence → Nat
  | or => 0
  | and => 1
  | equality => 2
  | relational => 3

/-- The place of a level or of signed operands, which bind tightest. -/
def place : Option Precedence → Nat
  | some level => level.strength
  | none => 4

@[simp] theorem place_tighter? (level : Precedence) :
    place level.tighter? = level.strength + 1 := by
  cases level <;> rfl

end Precedence

inductive Sign
  | not
  | minus
  | plus
deriving DecidableEq

namespace Sign

def token : Sign → Token
  | not => .not
  | minus => .minus
  | plus => .plus

def apply : Sign → Condition → Condition
  | not => .not
  | minus => Condition.withMinus
  | plus => id

end Sign

inductive Phrase
  | constant (value : Scalar)
  | property (name : String)
  | group (inner : Phrase)
  | signed (sign : Sign) (part : Phrase)
  | link (op : Operator) (lhs rhs : Phrase)

namespace Phrase

def tokens : Phrase → List Token
  | constant value => [.constant value]
  | property name => [.property name]
  | group inner => .openParen :: inner.tokens ++ [.closeParen]
  | signed sign part => sign.token :: part.tokens
  | link op lhs rhs => lhs.tokens ++ .binary op :: rhs.tokens

def condition : Phrase → Condition
  | constant value => .constant value
  | property name => .property name
  | group inner => inner.condition
  | signed sign part => sign.apply part.condition
  | link op lhs rhs => .binary op lhs.condition rhs.condition

/-- The phrases of a level, or the signed operands if there is none. Chains grow on the left. -/
inductive Derives : Option Precedence → Phrase → Prop
  | constant (value : Scalar) : Derives none (constant value)
  | property (name : String) : Derives none (property name)
  | group {inner : Phrase} : Derives (some .or) inner → Derives none (group inner)
  | signed (sign : Sign) {part : Phrase} : Derives none part → Derives none (signed sign part)
  | operand {level : Precedence} {p : Phrase} :
    Derives level.tighter? p → Derives (some level) p
  | link {level : Precedence} {op : Operator} {lhs rhs : Phrase} :
    op.precedence = level → Derives (some level) lhs → Derives level.tighter? rhs →
      Derives (some level) (link op lhs rhs)

theorem Derives.loosen {level : Precedence} {p : Phrase} (h : p.Derives (some level)) :
    p.Derives (some .or) := by
  cases level with
  | or => exact h
  | and => exact .operand h
  | equality =>
    have hand : p.Derives (some .and) := .operand h
    exact .operand hand
  | relational =>
    have heq : p.Derives (some .equality) := .operand h
    have hand : p.Derives (some .and) := .operand heq
    exact .operand hand

/-- A text spells a phrase as a whole. -/
def Spelled (p : Phrase) (source : String) : Prop :=
  p.Derives (some .or) ∧
    ∃ lexemes, Lexeme.split source.toList = .ok lexemes ∧ lexemes.map Lexeme.token = p.tokens

/-- The number of operators of a level that follow one another at the end of a phrase. -/
def links (level : Precedence) : Phrase → Nat
  | link op lhs _ => if op.precedence = level then lhs.links level + 1 else 0
  | _ => 0

/-- A constant or property of a phrase, and what stands around it. -/
structure Operand where
  /-- The signs in front of it or of a group around it. -/
  signs : Nat
  /-- Those of the signs that are operators of the condition. -/
  kept : Nat
  groups : Nat
  /-- The operators that come before it in the chains it belongs to. -/
  before : Nat
  /-- The operators that have it on either side in the chains it belongs to: the last one before it
  and all that come after it. -/
  joined : Nat

/-- Whether a sign in front of a part leaves an operator in the condition. -/
def keeps : Sign → Phrase → Bool
  | .not, _ => true
  | .minus, part =>
    match part.condition with
    | .constant (.number _) => false
    | _ => true
  | .plus, _ => false

def operands : Phrase → List Operand
  | constant _ | property _ => [⟨0, 0, 0, 0, 0⟩]
  | group inner => inner.operands.map fun o => { o with groups := o.groups + 1 }
  | signed sign part =>
    part.operands.map fun o =>
      { o with signs := o.signs + 1, kept := o.kept + (keeps sign part).toNat }
  | link op lhs rhs =>
    (lhs.operands.map fun o => { o with joined := o.joined + 1 }) ++
      rhs.operands.map fun o =>
        { o with before := o.before + (lhs.links op.precedence + 1), joined := o.joined + 1 }

namespace Operand

/-- The levels of nesting that the parser counts where it reads an operand. -/
def counted (o : Operand) : Nat := o.signs + o.groups + o.before

def above (o : Operand) : Nat := o.kept + o.joined

end Operand

/-- No operand of a phrase is nested too deeply if the phrase begins at a depth. -/
def FitsAt (depth : Nat) (p : Phrase) : Prop :=
  ∀ o ∈ p.operands, depth + o.counted ≤ Condition.nestingLimit

theorem tokens_ne_nil (p : Phrase) : p.tokens ≠ [] := by
  cases p with
  | constant value | property name | group inner | signed sign part => exact List.cons_ne_nil _ _
  | link op lhs rhs => exact List.append_ne_nil_of_right_ne_nil _ (List.cons_ne_nil _ _)

theorem operands_ne_nil (p : Phrase) : p.operands ≠ [] := by
  induction p with
  | constant value | property name => simp only [operands]; exact List.cons_ne_nil _ _
  | group inner ih | signed sign inner ih =>
    simp only [operands, ne_eq, List.map_eq_nil_iff]
    exact ih
  | link op lhs rhs ihl ihr =>
    simp only [operands, ne_eq, List.append_eq_nil_iff, List.map_eq_nil_iff, not_and]
    exact fun h => absurd h ihl

theorem FitsAt.depth_le {depth : Nat} {p : Phrase} (h : p.FitsAt depth) :
    depth ≤ Condition.nestingLimit := by
  obtain ⟨o, ho⟩ := List.exists_mem_of_ne_nil _ p.operands_ne_nil
  exact Nat.le_trans (Nat.le_add_right _ _) (h o ho)

@[simp] theorem fitsAt_constant {depth : Nat} {value : Scalar} :
    (constant value).FitsAt depth ↔ depth ≤ Condition.nestingLimit := by
  simp [FitsAt, operands, Operand.counted]

@[simp] theorem fitsAt_property {depth : Nat} {name : String} :
    (property name).FitsAt depth ↔ depth ≤ Condition.nestingLimit := by
  simp [FitsAt, operands, Operand.counted]

@[simp] theorem fitsAt_group {depth : Nat} {inner : Phrase} :
    (group inner).FitsAt depth ↔ inner.FitsAt (depth + 1) := by
  simp only [FitsAt, operands, List.forall_mem_map, Operand.counted]
  refine forall₂_congr fun o _ => ?_
  omega

@[simp] theorem fitsAt_signed {depth : Nat} {sign : Sign} {part : Phrase} :
    (signed sign part).FitsAt depth ↔ part.FitsAt (depth + 1) := by
  simp only [FitsAt, operands, List.forall_mem_map, Operand.counted]
  refine forall₂_congr fun o _ => ?_
  omega

@[simp] theorem fitsAt_link {depth : Nat} {op : Operator} {lhs rhs : Phrase} :
    (link op lhs rhs).FitsAt depth ↔
      lhs.FitsAt depth ∧ rhs.FitsAt (depth + lhs.links op.precedence + 1) := by
  simp only [FitsAt, operands, List.forall_mem_append, List.forall_mem_map, Operand.counted]
  refine and_congr Iff.rfl (forall₂_congr fun o _ => ?_)
  omega

/-- The operators of a phrase outside groups are no looser than its level. -/
theorem Derives.links_eq_zero {rank : Option Precedence} {p : Phrase} (h : p.Derives rank)
    {level : Precedence} (hlevel : level.strength < Precedence.place rank) :
    p.links level = 0 := by
  induction h with
  | constant value | property name | group h ih | signed sign h ih => rfl
  | operand h ih =>
    apply ih
    rw [Precedence.place_tighter?]
    exact Nat.lt_succ_of_lt hlevel
  | link hop hl hr ihl ihr =>
    rw [links, if_neg]
    intro he
    rw [← he, hop] at hlevel
    exact Nat.lt_irrefl _ hlevel

end Phrase
end FeatureStyle
