import FeatureStyle.Value.Basic

/-!
# Paths

A path leads from a value into its fields and items.
-/

namespace FeatureStyle

inductive PathStep
  | field (name : String)
  | index (n : Nat)
deriving DecidableEq

abbrev Path := List PathStep

def PathStep.text : PathStep → String
  | field name => "." ++ name
  | index n => s!"[{n}]"

/-- The text of a path, in which `$` stands for the value it starts from. -/
def Path.text (path : Path) : String := path.foldl (fun text step => text ++ step.text) "$"

namespace Value

/-- The value one step away. -/
def step? : Value → PathStep → Option Value
  | object fields, .field name => Fields.get? fields name
  | array items, .index n => items[n]?
  | _, _ => none

/-- The value at the end of a path. -/
def at? (v : Value) : Path → Option Value
  | [] => some v
  | step :: path =>
    match v.step? step with
    | some next => next.at? path
    | none => none

theorem at?_cons (v : Value) (step : PathStep) (path : Path) :
    v.at? (step :: path) = (v.step? step).bind fun next => next.at? path := by
  rw [at?]
  cases v.step? step <;> rfl

end Value
end FeatureStyle
