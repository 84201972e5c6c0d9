import FeatureStyle.Event

/-!
# Resolving a tree for a feature

Every expression in a tree is replaced by its value for a feature. An expression without a value
leaves its field out of an object, and leaves null in its place in an array. Branches are read once
and kept as a choice; each choice that is met adds its defects to the warnings.

A feature is degraded if its tree is too deep. Then expressions are not evaluated but treated as if
they had no value.
-/

namespace FeatureStyle

/-- The choices read so far, by their branches. -/
abbrev ChoiceTable := Table (List Branch) Choice

/-- What was read, warned of and told while a tree is resolved. -/
structure Progress where
  choices : ChoiceTable
  warnings : List Warning
  events : List Event

namespace Progress

/-- The choice of some branches, which is kept for the next time. -/
def choice (p : Progress) (branches : List Branch) : Choice × Progress :=
  match p.choices.get? branches with
  | some choice => (choice, p)
  | none =>
    let choice := Choice.ofBranches branches
    (choice, { p with
      choices := p.choices.put branches choice
      events := p.events ++ Event.ofBranches branches })

def evaluate (p : Progress) (f : Feature) (field : String) (branches : List Branch) :
    Option Value × Progress :=
  let (choice, p) := p.choice branches
  (choice.evaluate f,
    { p with warnings := p.warnings ++ choice.defects.map (Warning.brokenBranch field) })

end Progress

namespace Value

mutual

/-- The value for a feature; none if it is an expression without a value. What branches give is
scalar, so it is not resolved again. -/
def resolve (f : Feature) (field : String) : Value → Progress → Option Value × Progress
  | expression (.constant value), p => resolve f field value p
  | expression (.conditions branches), p => p.evaluate f field branches
  | object fields, p =>
    let (fields, p) := resolveFields f field fields p
    (some (object fields), p)
  | array items, p =>
    let (items, p) := resolveItems f field items p
    (some (array items), p)
  | value, p => (some value, p)

/-- The fields that have a value. -/
def resolveFields (f : Feature) (field : String) :
    List (String × Value) → Progress → List (String × Value) × Progress
  | [], p => ([], p)
  | (key, value) :: rest, p =>
    let (resolved, p) := resolve f field value p
    let (others, p) := resolveFields f field rest p
    match resolved with
    | some value => ((key, value) :: others, p)
    | none => (others, p)

/-- The items, null where there is no value. -/
def resolveItems (f : Feature) (field : String) :
    List Value → Progress → List Value × Progress
  | [], p => ([], p)
  | item :: rest, p =>
    let (resolved, p) := resolve f field item p
    let (others, p) := resolveItems f field rest p
    (resolved.getD null :: others, p)

end

mutual

/-- The value with every expression treated as if it had no value. -/
def plain : Value → Option Value
  | expression _ => none
  | object fields => some (object (plainFields fields))
  | array items => some (array (plainItems items))
  | value => some value

def plainFields : List (String × Value) → List (String × Value)
  | [] => []
  | (key, value) :: rest =>
    match plain value with
    | some value => (key, value) :: plainFields rest
    | none => plainFields rest

def plainItems : List Value → List Value
  | [] => []
  | item :: rest => (plain item).getD null :: plainItems rest

end

end Value

namespace Tree

/-- The fields of a root that have a value for a feature, resolved in order. -/
def resolveRoot (f : Feature) :
    List (String × Value) → Progress → List (String × Value) × Progress
  | [], p => ([], p)
  | (field, value) :: rest, p =>
    let (resolved, p) := value.resolve f field p
    let (others, p) := resolveRoot f rest p
    match resolved with
    | some value => ((field, value) :: others, p)
    | none => (others, p)

/-- The fields of a degraded feature: those of the layer without expressions, or only the scalar
ones if the layer itself is too deep. -/
def fallback (layer : Tree) (depthLimit : Nat) : List (String × Value) :=
  if depthLimit < layer.depth then layer.fields.filter fun entry => entry.2.isScalar
  else Value.plainFields layer.fields

end Tree
end FeatureStyle
