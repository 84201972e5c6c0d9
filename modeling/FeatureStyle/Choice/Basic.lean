import FeatureStyle.Choice.Template
import FeatureStyle.Condition.Evaluation
import FeatureStyle.Condition.Parsing

/-!
# Choices

A choice is a list of branches that have been read. They are tried in order, and the first one whose
condition holds gives the result. A branch whose condition cannot be read keeps its place but never
holds.
-/

namespace FeatureStyle

/-- A branch with its condition read, as far as it can be, and its result split into parts. -/
structure ParsedBranch where
  condition : Except SyntaxError Condition
  result : Template

structure Defect where
  branch : Nat
  error : SyntaxError
deriving DecidableEq

namespace ParsedBranch

def ofBranch (branch : Branch) : ParsedBranch :=
  ⟨Condition.parse branch.condition, Template.ofText branch.result⟩

def error? (branch : ParsedBranch) : Option SyntaxError :=
  match branch.condition with
  | .ok _ => none
  | .error e => some e

def holds (branch : ParsedBranch) (f : Feature) : Bool :=
  match branch.condition with
  | .ok condition => condition.holds f
  | .error _ => false

end ParsedBranch

abbrev Choice := List ParsedBranch

namespace Choice

def ofBranches (branches : List Branch) : Choice := branches.map ParsedBranch.ofBranch

/-- The position of the first branch that holds. -/
def selected? (choice : Choice) (f : Feature) : Option Nat :=
  choice.findIdx? fun branch => branch.holds f

/-- The result of the first branch that holds. -/
def evaluate (choice : Choice) (f : Feature) : Option Value :=
  (choice.find? fun branch => branch.holds f).map fun branch => branch.result.render f

theorem evaluate_eq_bind_selected? (choice : Choice) (f : Feature) :
    choice.evaluate f = (choice.selected? f).bind fun index =>
      choice[index]?.map fun branch => branch.result.render f := by
  rw [evaluate, selected?, List.find?_eq_bind_findIdx?_getElem?, Option.map_bind]
  rfl

def defects (choice : Choice) : List Defect :=
  choice.zipIdx.filterMap fun (branch, index) => branch.error?.map fun e => ⟨index, e⟩

end Choice

/-- The value of an expression together with how it came about. -/
structure Evaluation where
  outcome : Option Value
  selected : Option Nat
  defects : List Defect

namespace Expression

/-- The value of an expression for a feature; none if no branch holds. -/
def evaluate (e : Expression Value) (f : Feature) : Option Value :=
  match e with
  | constant value => some value
  | conditions branches => (Choice.ofBranches branches).evaluate f

/-- The value of an expression for a feature, with the branch that gave it and the broken branches. -/
def explain (e : Expression Value) (f : Feature) : Evaluation :=
  match e with
  | constant value => ⟨some value, none, []⟩
  | conditions branches =>
    let choice := Choice.ofBranches branches
    let selected := choice.selected? f
    let outcome := selected.bind fun index => choice[index]?.map fun branch => branch.result.render f
    ⟨outcome, selected, choice.defects⟩

theorem outcome_explain (e : Expression Value) (f : Feature) :
    (e.explain f).outcome = e.evaluate f := by
  cases e with
  | constant value => rfl
  | conditions branches => exact (Choice.evaluate_eq_bind_selected? _ f).symm

end Expression
end FeatureStyle
