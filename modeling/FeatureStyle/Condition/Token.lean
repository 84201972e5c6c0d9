import FeatureStyle.Condition.Basic
import FeatureStyle.Condition.SyntaxError

/-!
# Tokens of conditions

A lexeme is a token together with the bytes of the text that spell it.
-/

namespace FeatureStyle

inductive Token
  | constant (value : Scalar)
  | property (name : String)
  | binary (op : Operator)
  | not
  | minus
  | plus
  | openParen
  | closeParen
deriving DecidableEq

structure Lexeme where
  token : Token
  span : Span
deriving DecidableEq

end FeatureStyle
