import FeatureStyle.Text.Shown

/-!
# Quoted texts

Texts and characters in diagnostics stand in quotes. The backslash, the quote of the kind in use and a
few control characters have short escapes; other characters without a shape of their own are written
by their code in hexadecimal.
-/

namespace FeatureStyle.Text

/-- The spelling of a character between quotes of the given kind. -/
def escapeQuoted (quote c : Char) : List Char :=
  if c = '\x00' then ['\\', '0']
  else if c = '\t' then ['\\', 't']
  else if c = '\r' then ['\\', 'r']
  else if c = '\n' then ['\\', 'n']
  else if c = '\\' ∨ c = quote then ['\\', c]
  else if isShown c then [c]
  else '\\' :: 'u' :: '\x7b' :: Nat.toDigits 16 c.toNat ++ ['\x7d']

def quoteText (s : String) : String :=
  "\"" ++ String.ofList (s.toList.flatMap (escapeQuoted '\"')) ++ "\""

def quoteChar (c : Char) : String := "'" ++ String.ofList (escapeQuoted '\'' c) ++ "'"

end FeatureStyle.Text
