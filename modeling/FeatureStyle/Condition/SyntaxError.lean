/-!
# Syntax errors

A syntax error says what is wrong with the text of a condition and which bytes of it are concerned.
-/

namespace FeatureStyle

structure Span where
  start : Nat
  stop : Nat
deriving DecidableEq

inductive SyntaxErrorCause
  /-- There are no tokens. -/
  | empty
  /-- Characters that begin no token. -/
  | unknownToken
  /-- A placeholder that names no property. -/
  | badPlaceholder
  /-- A token that cannot stand where it stands. -/
  | misplacedToken
  /-- The text ends where an operand has to follow. -/
  | missingOperand
  | unclosedParenthesis
  | nestingTooDeep
deriving DecidableEq

namespace SyntaxErrorCause

def label : SyntaxErrorCause → String
  | empty => "Empty"
  | unknownToken => "InvalidToken"
  | badPlaceholder => "InvalidAttributeReference"
  | misplacedToken => "UnexpectedToken"
  | missingOperand => "UnexpectedEnd"
  | unclosedParenthesis => "UnclosedParenthesis"
  | nestingTooDeep => "NestingTooDeep"

def text : SyntaxErrorCause → String
  | empty => "empty condition"
  | unknownToken => "invalid token"
  | badPlaceholder => "invalid attribute reference"
  | misplacedToken => "unexpected token"
  | missingOperand => "unexpected end of condition"
  | unclosedParenthesis => "unclosed parenthesis"
  | nestingTooDeep => "condition nested too deeply"

end SyntaxErrorCause

structure SyntaxError where
  cause : SyntaxErrorCause
  span : Span
deriving DecidableEq

def SyntaxError.message (e : SyntaxError) : String :=
  e.cause.text ++ s!" at {e.span.start}..{e.span.stop}"

end FeatureStyle
