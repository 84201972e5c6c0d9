import FeatureStyle.Json.Basic
import FeatureStyle.Numeral.Scan

/-!
# Reading JSON text

A number without a point and an exponent that fits an unsigned 64-bit integer, or a signed one if it
is negative, is read as an integer; every other number is read as the nearest double. A recursion
depth as large as the text is long is always enough.
-/

namespace FeatureStyle.Json.Reader

def skipBlanks (text : List Char) : List Char :=
  text.dropWhile fun c => c == ' ' || c == '\t' || c == '\n' || c == '\r'

def hexValue? (c : Char) : Option Nat :=
  if c.isDigit then some (c.toNat - '0'.toNat)
  else if 'a' ≤ c ∧ c ≤ 'f' then some (c.toNat - 'a'.toNat + 10)
  else if 'A' ≤ c ∧ c ≤ 'F' then some (c.toNat - 'A'.toNat + 10)
  else none

/-- The 16-bit unit that four hexadecimal digits spell. -/
def unit? (a b c d : Char) : Option Nat := do
  some (((((← hexValue? a) * 16 + (← hexValue? b)) * 16) + (← hexValue? c)) * 16 + (← hexValue? d))

/-- The character that one letter stands for after a backslash. -/
def escaped? (c : Char) : Option Char :=
  if c = '\"' ∨ c = '\\' ∨ c = '/' then some c
  else if c = 'b' then some '\x08'
  else if c = 'f' then some '\x0c'
  else if c = 'n' then some '\n'
  else if c = 'r' then some '\r'
  else if c = 't' then some '\t'
  else none

private def prepend (c : Char) (tail : Option (List Char × List Char)) :
    Option (List Char × List Char) :=
  tail.map fun (chars, rest) => (c :: chars, rest)

/-- The characters of a string up to its closing quote, and the rest. Characters beyond 16 bits may
be spelled by a pair of units. -/
def characters? : List Char → Option (List Char × List Char)
  | [] => none
  | '\"' :: rest => some ([], rest)
  | '\\' :: 'u' :: a :: b :: c :: d :: rest =>
    match unit? a b c d with
    | none => none
    | some high =>
      if 0xD800 ≤ high ∧ high < 0xDC00 then
        match rest with
        | '\\' :: 'u' :: e :: f :: g :: h :: rest =>
          match unit? e f g h with
          | none => none
          | some low =>
            if 0xDC00 ≤ low ∧ low < 0xE000 then
              prepend (Char.ofNat (0x10000 + (high - 0xD800) * 0x400 + (low - 0xDC00)))
                (characters? rest)
            else none
        | _ => none
      else if 0xDC00 ≤ high ∧ high < 0xE000 then none
      else prepend (Char.ofNat high) (characters? rest)
  | '\\' :: c :: rest =>
    match escaped? c with
    | none => none
    | some c => prepend c (characters? rest)
  | c :: rest => if c.toNat < 0x20 then none else prepend c (characters? rest)

/-- An unsigned numeral in the stricter spelling of documents: no leading zeros, and digits on both
sides of the point. -/
def strict (text : List Char) : Bool :=
  match text.takeWhile Char.isDigit, text.dropWhile Char.isDigit with
  | [], _ => false
  | '0' :: _ :: _, _ => false
  | _, '.' :: c :: _ => c.isDigit
  | _, ['.'] => false
  | _, _ => true

def number? (text : List Char) : Option (JsonNumber × List Char) :=
  let (negative, unsigned) :=
    match text with
    | '-' :: rest => (true, rest)
    | _ => (false, text)
  if !strict unsigned then none
  else
    match Numeral.scan? unsigned with
    | none => none
    | some (decimal, rest) =>
      let isWhole :=
        match unsigned.dropWhile Char.isDigit with
        | c :: _ => c != '.' && c != 'e' && c != 'E'
        | [] => true
      let n := decimal.digits
      if isWhole && !negative && n < UInt64.size then some (.integer n, rest)
      else if isWhole && negative && n ≠ 0 && n ≤ UInt64.size / 2 then some (.integer (-n), rest)
      else some (.double (decimal.toDouble negative), rest)

mutual

def value? : Nat → List Char → Option (Json × List Char)
  | 0, _ => none
  | fuel + 1, text =>
    match skipBlanks text with
    | 'n' :: 'u' :: 'l' :: 'l' :: rest => some (.null, rest)
    | 't' :: 'r' :: 'u' :: 'e' :: rest => some (.bool true, rest)
    | 'f' :: 'a' :: 'l' :: 's' :: 'e' :: rest => some (.bool false, rest)
    | '\"' :: rest => (characters? rest).map fun (chars, rest) => (.string (String.ofList chars), rest)
    | '[' :: rest =>
      match skipBlanks rest with
      | ']' :: rest => some (.array [], rest)
      | rest => (items? fuel rest).map fun (items, rest) => (.array items, rest)
    | '\x7b' :: rest =>
      match skipBlanks rest with
      | '\x7d' :: rest => some (.object [], rest)
      | rest => (members? fuel rest).map fun (members, rest) => (.object members, rest)
    | rest => (number? rest).map fun (n, rest) => (.number n, rest)

def items? : Nat → List Char → Option (List Json × List Char)
  | 0, _ => none
  | fuel + 1, text =>
    match value? fuel text with
    | none => none
    | some (item, rest) =>
      match skipBlanks rest with
      | ',' :: rest => (items? fuel rest).map fun (items, rest) => (item :: items, rest)
      | ']' :: rest => some ([item], rest)
      | _ => none

/-- One or more members up to the closing brace. Of two members under one key the later counts. -/
def members? : Nat → List Char → Option (Fields Json × List Char)
  | 0, _ => none
  | fuel + 1, text =>
    match skipBlanks text with
    | '\"' :: rest =>
      match characters? rest with
      | none => none
      | some (chars, rest) =>
        let key := String.ofList chars
        match skipBlanks rest with
        | ':' :: rest =>
          match value? fuel rest with
          | none => none
          | some (value, rest) =>
            match skipBlanks rest with
            | ',' :: rest =>
              (members? fuel rest).map fun (members, rest) =>
                (if members.contains key then members else members.insert key value, rest)
            | '\x7d' :: rest => some ([(key, value)], rest)
            | _ => none
        | _ => none
    | _ => none

end

end FeatureStyle.Json.Reader

namespace FeatureStyle.Json

def read? (text : String) : Option Json :=
  let chars := text.toList
  match Reader.value? (chars.length + 1) chars with
  | some (document, rest) => if (Reader.skipBlanks rest).isEmpty then some document else none
  | none => none

end FeatureStyle.Json
