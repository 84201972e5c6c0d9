import FeatureStyle.Condition.Lexeme

/-!
# Parsing conditions

Binary operators bind on four levels and associate to the left; signs and `!` bind tighter, and
parentheses group. A minus in front of a numeral makes a negative constant.

Every sign and `!`, every opening parenthesis and every binary operator of a chain goes one level
deeper. A chain and a signed operand come back to the depth they began at. Past `nestingLimit` levels
parsing fails, so that no parse recurses deeper than a fixed bound.
-/

namespace FeatureStyle

/-- The levels of binary operators, loosest first. -/
inductive Precedence
  | or
  | and
  | equality
  | relational
deriving DecidableEq

/-- The next tighter level; none if the operands of a level are signed ones. -/
def Precedence.tighter? : Precedence → Option Precedence
  | or => some and
  | and => some equality
  | equality => some relational
  | relational => none

def Operator.precedence : Operator → Precedence
  | or => .or
  | and => .and
  | eq | ne => .equality
  | lt | le | gt | ge => .relational

namespace Condition

/-- How many levels deep a condition may be nested. -/
def nestingLimit : Nat := 128

/-- A place between two lexemes, and the depth of nesting there. -/
structure Cursor where
  /-- The lexemes still to be read. -/
  rest : List Lexeme
  depth : Nat
  /-- Where the text ends. -/
  stop : Nat

abbrev Parsed := Except SyntaxError (Condition × Cursor)

namespace Cursor

def token? (c : Cursor) : Option Token := c.rest.head?.map Lexeme.token

/-- The bytes of the next lexeme, or the end of the text. -/
def here (c : Cursor) : Span :=
  match c.rest with
  | lexeme :: _ => lexeme.span
  | [] => ⟨c.stop, c.stop⟩

/-- Takes the next lexeme and goes one level deeper. -/
def enter (c : Cursor) : Except SyntaxError Cursor :=
  if nestingLimit < c.depth + 1 then .error ⟨.nestingTooDeep, c.here⟩
  else .ok { c with rest := c.rest.tail, depth := c.depth + 1 }

def operator? (c : Cursor) (level : Precedence) : Option Operator :=
  match c.token? with
  | some (.binary op) => if op.precedence = level then some op else none
  | _ => none

end Cursor

/-- A condition with a minus in front; a numeral with a minus is a constant. -/
def withMinus : Condition → Condition
  | constant (.number x) => constant (.number (-x))
  | part => minus part

mutual

/-- A chain of operators of one level. -/
def chain : Nat → Precedence → Cursor → Parsed
  | 0, _, c => .error ⟨.nestingTooDeep, c.here⟩
  | fuel + 1, level, c =>
    match operand fuel level c with
    | .error e => .error e
    | .ok (lhs, next) =>
      match links fuel level lhs next with
      | .error e => .error e
      | .ok (condition, last) => .ok (condition, { last with depth := c.depth })

/-- The operators and right operands that follow the first operand of a chain. -/
def links : Nat → Precedence → Condition → Cursor → Parsed
  | 0, _, _, c => .error ⟨.nestingTooDeep, c.here⟩
  | fuel + 1, level, lhs, c =>
    match c.operator? level with
    | none => .ok (lhs, c)
    | some op =>
      match c.enter with
      | .error e => .error e
      | .ok inner =>
        match operand fuel level inner with
        | .error e => .error e
        | .ok (rhs, next) => links fuel level (binary op lhs rhs) next

/-- An operand of a level: a chain of the next tighter level, or a signed operand. -/
def operand : Nat → Precedence → Cursor → Parsed
  | 0, _, c => .error ⟨.nestingTooDeep, c.here⟩
  | fuel + 1, level, c =>
    match level.tighter? with
    | some tighter => chain fuel tighter c
    | none => signed fuel c

def signed : Nat → Cursor → Parsed
  | 0, c => .error ⟨.nestingTooDeep, c.here⟩
  | fuel + 1, c =>
    let behind (wrap : Condition → Condition) : Parsed :=
      match c.enter with
      | .error e => .error e
      | .ok inner =>
        match signed fuel inner with
        | .error e => .error e
        | .ok (condition, last) => .ok (wrap condition, { last with depth := c.depth })
    match c.token? with
    | some .not => behind not
    | some .minus => behind withMinus
    | some .plus => behind id
    | _ => leaf fuel c

/-- A constant, a property or a group in parentheses. -/
def leaf : Nat → Cursor → Parsed
  | 0, c => .error ⟨.nestingTooDeep, c.here⟩
  | fuel + 1, c =>
    match c.rest with
    | [] => .error ⟨.missingOperand, c.here⟩
    | lexeme :: rest =>
      match lexeme.token with
      | .constant value => .ok (constant value, { c with rest })
      | .property name => .ok (property name, { c with rest })
      | .openParen =>
        match c.enter with
        | .error e => .error e
        | .ok inner =>
          match chain fuel .or inner with
          | .error e => .error e
          | .ok (condition, last) =>
            match last.rest with
            | ⟨.closeParen, _⟩ :: rest =>
              .ok (condition, { last with rest, depth := last.depth - 1 })
            | _ => .error ⟨.unclosedParenthesis, lexeme.span⟩
      | _ => .error ⟨.misplacedToken, lexeme.span⟩

end

/-- A recursion depth that no parse exceeds: between two levels of nesting there are at most eleven
calls. -/
def recursionBound : Nat := 11 * (nestingLimit + 1)

/-- The condition that the lexemes of a text spell, given the length of the text in bytes. -/
def ofLexemes (lexemes : List Lexeme) (stop : Nat) : Except SyntaxError Condition :=
  match lexemes with
  | [] => .error ⟨.empty, ⟨0, stop⟩⟩
  | _ =>
    match chain recursionBound .or ⟨lexemes, 0, stop⟩ with
    | .error e => .error e
    | .ok (condition, last) =>
      match last.rest with
      | [] => .ok condition
      | lexeme :: _ => .error ⟨.misplacedToken, lexeme.span⟩

/-- The condition that a text spells. -/
def parse (source : String) : Except SyntaxError Condition :=
  match Lexeme.split source.toList with
  | .error e => .error e
  | .ok lexemes => ofLexemes lexemes (byteLength source.toList)

end Condition
end FeatureStyle
