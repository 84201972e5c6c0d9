import FeatureStyle.Value.Basic
import FeatureStyle.Numeral.Layout
import FeatureStyle.Numeral.Scan

/-!
# Values as text

A string is shown as it is, but quoted inside an object or an array. Only the quote, the backslash
and the line feed are escaped there. In the other direction a text is read as a number or a boolean
if it spells one.
-/

namespace FeatureStyle.Value

/-- The spelling of a character inside a quoted text. -/
def escapeNested (c : Char) : List Char :=
  if c = '\"' then ['\\', '\"']
  else if c = '\\' then ['\\', '\\']
  else if c = '\n' then ['\\', 'n']
  else [c]

def quoteNested (s : String) : String :=
  "\"" ++ String.ofList (s.toList.flatMap escapeNested) ++ "\""

mutual

def nestedText : Value → String
  | null => "null"
  | bool b => if b then "true" else "false"
  | number x => x.text
  | string s => quoteNested s
  | object fields => "\x7b" ++ fieldsText fields ++ "\x7d"
  | array items => "[" ++ itemsText items ++ "]"
  | expression _ => "<expression>"

def fieldsText : List (String × Value) → String
  | [] => ""
  | [(key, value)] => quoteNested key ++ ":" ++ nestedText value
  | (key, value) :: fields =>
    quoteNested key ++ ":" ++ nestedText value ++ "," ++ fieldsText fields

def itemsText : List Value → String
  | [] => ""
  | [item] => nestedText item
  | item :: items => nestedText item ++ "," ++ itemsText items

end

def text : Value → String
  | string s => s
  | value => nestedText value

/-- The scalar that a text spells: a number or a boolean if it can be read as one, else the text
itself. Blanks around a number or a boolean are ignored. -/
def ofText (text : String) : Value :=
  let inner := Text.trim text.toList
  match Numeral.read? inner with
  | some x => number x
  | none =>
    if inner = "true".toList then bool true
    else if inner = "false".toList then bool false
    else string text

end FeatureStyle.Value
