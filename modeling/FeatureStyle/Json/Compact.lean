import FeatureStyle.Json.Basic

/-!
# Compact JSON text

Documents are written without blanks, with the numbers as the printer spells them. In strings the
quote, the backslash and the control characters below the space are escaped, all other characters stand
for themselves.
-/

namespace FeatureStyle.Json

private def hexDigits (n : Nat) : List Char := [Nat.digitChar (n / 16), Nat.digitChar (n % 16)]

def escape (c : Char) : List Char :=
  if c = '\"' then ['\\', '\"']
  else if c = '\\' then ['\\', '\\']
  else if c = '\x08' then ['\\', 'b']
  else if c = '\t' then ['\\', 't']
  else if c = '\n' then ['\\', 'n']
  else if c = '\x0c' then ['\\', 'f']
  else if c = '\r' then ['\\', 'r']
  else if c.toNat < 0x20 then '\\' :: 'u' :: '0' :: '0' :: hexDigits c.toNat
  else [c]

def quote (s : String) : String := "\"" ++ String.ofList (s.toList.flatMap escape) ++ "\""

variable [NumberPrinter]

mutual

def compact : Json → String
  | null => "null"
  | bool b => if b then "true" else "false"
  | number n => NumberPrinter.text n
  | string s => quote s
  | array items => "[" ++ compactItems items ++ "]"
  | object members => "\x7b" ++ compactMembers members ++ "\x7d"

private def compactItems : List Json → String
  | [] => ""
  | [item] => compact item
  | item :: items => compact item ++ "," ++ compactItems items

private def compactMembers : List (String × Json) → String
  | [] => ""
  | [(key, value)] => quote key ++ ":" ++ compact value
  | (key, value) :: members => quote key ++ ":" ++ compact value ++ "," ++ compactMembers members

end

end FeatureStyle.Json
