import FeatureStyle.Json.Basic
import FeatureStyle.Layer.Tree

/-!
# Authoring documents

Properties are authored as JSON. Scalars, arrays and objects stand for themselves, but an object
whose only key is `expression` stands for an expression: a scalar is a constant, and an object with
an array under `conditions` lists pairs of a condition and a result. Malformed pairs are skipped.
-/

namespace FeatureStyle

/-- Why a document is no property tree. -/
inductive AuthoringError
  | notAnObject (found : String)
deriving DecidableEq

def AuthoringError.message : AuthoringError → String
  | notAnObject found => s!"property tree must be a JSON object, found {found}"

namespace Authoring

def expressionMember : String := "expression"

def conditionsMember : String := "conditions"

variable [NumberPrinter]

/-- The text of a result. Bare numbers and booleans are kept as they are spelled, so that reading
the text gives them back. -/
def resultText? : Json → Option String
  | .string s => some s
  | .number n => some (NumberPrinter.text n)
  | .bool b => some (if b then "true" else "false")
  | _ => none

def branch? : Json → Option Branch
  | .array [.string condition, result] => (resultText? result).map fun text => ⟨condition, text⟩
  | _ => none

/-- The expression that the document under the expression key stands for. -/
def payload? : Json → Option (Expression Value)
  | .bool b => some (.constant (.bool b))
  | .number n => some (.constant (.number n.toDouble))
  | .string s => some (.constant (.string s))
  | .object members =>
    match Fields.get? members conditionsMember with
    | some (.array pairs) => some (.conditions (pairs.filterMap branch?))
    | _ => none
  | .null | .array _ => none

/-- The expression that the members of an object stand for. -/
def expression? : List (String × Json) → Option (Expression Value)
  | [(key, payload)] => if key = expressionMember then payload? payload else none
  | _ => none

/-- The pairs of an expression that are no branches, with their positions. -/
def skippedPairs : List (String × Json) → List (Nat × Json)
  | [(_, .object members)] =>
    match Fields.get? members conditionsMember with
    | some (.array pairs) =>
      pairs.zipIdx.filterMap fun (pair, index) =>
        if (branch? pair).isNone then some (index, pair) else none
    | _ => []
  | _ => []

end Authoring

namespace Value

variable [NumberPrinter]

mutual

/-- The value that a document stands for. -/
def ofJson : Json → Value
  | .null => null
  | .bool b => bool b
  | .number n => number n.toDouble
  | .string s => string s
  | .array items => array (ofJsonItems items)
  | .object members =>
    match Authoring.expression? members with
    | some e => expression e
    | none => object (ofJsonMembers members)

def ofJsonItems : List Json → List Value
  | [] => []
  | item :: items => ofJson item :: ofJsonItems items

def ofJsonMembers : List (String × Json) → List (String × Value)
  | [] => []
  | (key, member) :: members => (key, ofJson member) :: ofJsonMembers members

end

mutual

/-- The malformed pairs skipped in a document, in reading order. -/
def skipped : Json → List (Nat × Json)
  | .null | .bool _ | .number _ | .string _ => []
  | .array items => skippedItems items
  | .object members =>
    match Authoring.expression? members with
    | some _ => Authoring.skippedPairs members
    | none => skippedMembers members

def skippedItems : List Json → List (Nat × Json)
  | [] => []
  | item :: items => skipped item ++ skippedItems items

def skippedMembers : List (String × Json) → List (Nat × Json)
  | [] => []
  | (_, member) :: members => skipped member ++ skippedMembers members

end

mutual

/-- The document of a value. A number that is not finite has no spelling and becomes null. -/
def toJson : Value → Json
  | null => .null
  | bool b => .bool b
  | number x => if x.isFinite then .number (.double x) else .null
  | string s => .string s
  | object fields => .object (toJsonFields fields)
  | array items => .array (toJsonItems items)
  | expression (.constant value) => .object [(Authoring.expressionMember, toJson value)]
  | expression (.conditions branches) =>
    .object [(Authoring.expressionMember, .object [(Authoring.conditionsMember,
      .array (branches.map fun branch => .array [.string branch.condition, .string branch.result]))])]

def toJsonFields : List (String × Value) → List (String × Json)
  | [] => []
  | (key, value) :: fields => (key, toJson value) :: toJsonFields fields

def toJsonItems : List Value → List Json
  | [] => []
  | item :: items => toJson item :: toJsonItems items

end

end Value

namespace Tree

variable [NumberPrinter]

/-- The tree that a document stands for. Its root is an object, whatever its only key is. -/
def ofJson : Json → Except AuthoringError Tree
  | .object members => .ok ⟨Value.ofJsonMembers members⟩
  | document => .error (.notAnObject document.typeName)

def skipped : Json → List (Nat × Json)
  | .object members => Value.skippedMembers members
  | _ => []

def toJson (t : Tree) : Json := .object (Value.toJsonFields t.fields)

end Tree
end FeatureStyle
