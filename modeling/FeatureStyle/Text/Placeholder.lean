import FeatureStyle.Text.Blank

/-!
# Placeholders

A placeholder is `$`, an opening brace, an inner text up to the first closing brace, and that brace.
It names a property of a feature if its inner text does.
-/

namespace FeatureStyle.Text

/-- What the inner text of a placeholder has to begin with. -/
def propertyPrefix : List Char := "feature.property.".toList

/-- The rest of a text behind a fixed beginning. -/
def dropExact? : List Char → List Char → Option (List Char)
  | [], text => some text
  | _ :: _, [] => none
  | p :: start, c :: text => if p = c then dropExact? start text else none

theorem dropExact?_eq_some_iff {start text rest : List Char} :
    dropExact? start text = some rest ↔ text = start ++ rest := by
  induction start generalizing text with
  | nil => simp [dropExact?]
  | cons p start ih =>
    cases text with
    | nil => simp [dropExact?]
    | cons c text =>
      rw [dropExact?]
      by_cases h : p = c
      · simp [h, ih]
      · simp [h, Ne.symm h]

/-- The name of the property that an inner text stands for. Blanks around it are ignored. -/
def propertyName? (inner : List Char) : Option String :=
  match dropExact? propertyPrefix (trim inner) with
  | some (c :: name) => some (String.ofList (c :: name))
  | _ => none

/-- The inner text up to the closing brace, and the text behind the brace. -/
def splitClosing? : List Char → Option (List Char × List Char)
  | [] => none
  | c :: text =>
    if c = '\x7d' then some ([], text)
    else (splitClosing? text).map fun (inner, rest) => (c :: inner, rest)

theorem splitClosing?_eq_some_iff {text inner rest : List Char} :
    splitClosing? text = some (inner, rest) ↔ text = inner ++ '\x7d' :: rest ∧ '\x7d' ∉ inner := by
  induction text generalizing inner rest with
  | nil => simp [splitClosing?]
  | cons c text ih =>
    rw [splitClosing?]
    by_cases h : c = '\x7d'
    · cases inner with
      | nil => simp [h]
      | cons d inner => simp +contextual [h, eq_comm]
    · cases inner with
      | nil => simp [h]
      | cons d inner =>
        simp only [h, ↓reduceIte, Option.map_eq_some_iff, Prod.exists, ih, Prod.mk.injEq,
          List.cons.injEq, List.cons_append, List.mem_cons, not_or]
        constructor
        · rintro ⟨inner, rest, ⟨rfl, hmem⟩, ⟨rfl, rfl⟩, rfl⟩
          exact ⟨⟨rfl, rfl⟩, Ne.symm h, hmem⟩
        · rintro ⟨⟨rfl, rfl⟩, _, hmem⟩
          exact ⟨inner, rest, ⟨rfl, hmem⟩, ⟨rfl, rfl⟩, rfl⟩

/-- The text before the first opening of a placeholder, and the text behind it. -/
def splitOpening? : List Char → Option (List Char × List Char)
  | [] => none
  | '$' :: '\x7b' :: rest => some ([], rest)
  | c :: text => (splitOpening? text).map fun (before, rest) => (c :: before, rest)

end FeatureStyle.Text
