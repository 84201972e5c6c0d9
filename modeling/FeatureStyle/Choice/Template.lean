import FeatureStyle.Feature
import FeatureStyle.Text.Placeholder
import FeatureStyle.Value.Text

/-!
# Result templates

A result is a text with placeholders for properties of a feature. A placeholder that names no
property, and an opening that is never closed, are plain text. Rendering puts the properties in place
and reads the whole as a number or a boolean if it spells one. A text that comes from a property is
never searched for placeholders.
-/

namespace FeatureStyle

/-- A part of a template. -/
inductive TemplatePart
  | text (s : String)
  | property (name : String)
deriving DecidableEq

abbrev Template := List TemplatePart

namespace Template

/-- A text as a template; an empty text has no part. -/
def ofPlain (text : List Char) : Template :=
  if text.isEmpty then [] else [.text (String.ofList text)]

/-- The parts of a text, given the plain text in front of it since the last placeholder. As every
placeholder takes a character, the length of the text bounds the recursion. -/
def parts : Nat → List Char → List Char → Template
  | 0, pending, text => ofPlain (pending ++ text)
  | fuel + 1, pending, text =>
    match Text.splitOpening? text with
    | none => ofPlain (pending ++ text)
    | some (before, behind) =>
      match Text.splitClosing? behind with
      | none => ofPlain (pending ++ text)
      | some (inner, rest) =>
        match Text.propertyName? inner with
        | some name => ofPlain (pending ++ before) ++ .property name :: parts fuel [] rest
        | none => parts fuel (pending ++ before ++ '$' :: '\x7b' :: inner ++ ['\x7d']) rest

def ofText (text : String) : Template := parts text.toList.length [] text.toList

def usesProperties (t : Template) : Bool :=
  t.any fun part =>
    match part with
    | .property _ => true
    | .text _ => false

/-- The text put in place of a part; empty for a property that is missing or not scalar. -/
def substitute (f : Feature) : TemplatePart → String
  | .text s => s
  | .property name =>
    match f.scalar? name with
    | some value => value.text
    | none => ""

/-- The value of a template for a feature. A single placeholder gives the property itself, except
that a text is read like the text of any other template. -/
def render (t : Template) (f : Feature) : Value :=
  match t with
  | [.property name] =>
    match f.scalar? name with
    | some (.string s) => Value.ofText s
    | some value => value
    | none => Value.ofText ""
  | _ => Value.ofText (String.join (t.map (substitute f)))

end Template
end FeatureStyle
