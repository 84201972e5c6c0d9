import FeatureStyle.Pipeline.Basic
import FeatureStyle.Proofs.Layer.Ordered

/-!
# Calls and what they leave in memory

The operations of a pipeline as data, and the history that explains what the pipeline remembers: for
every feature the resolution that its bindings and its stored bag go back to.
-/

namespace FeatureStyle

def OrderedTree.layered (layer : OrderedTree) (upper : Option OrderedTree) : OrderedTree where
  toTree := Pipeline.layered layer (upper.map toTree)
  ordered := by
    cases upper with
    | none => exact layer.ordered
    | some upper => exact (layer.overlay upper).ordered

theorem OrderedTree.toTree_layered (layer : OrderedTree) (upper : Option OrderedTree) :
    (layer.layered upper).toTree = Pipeline.layered layer (upper.map toTree) := rfl

/-- An operation of a pipeline. -/
inductive Call
  | resolveAll (layer : OrderedTree) (upper : Option OrderedTree) (features : List Feature)
  | resolve (layer : OrderedTree) (upper : Option OrderedTree) (feature : Feature)
  | forget (feature : FeatureId)
  | clear
  | release (feature : FeatureId)
  | releaseAll

namespace Call

/-- The layer, the override and the features that are resolved. -/
def request? : Call → Option (OrderedTree × Option OrderedTree × List Feature)
  | resolveAll layer upper features => some (layer, upper, features)
  | resolve layer upper feature => some (layer, upper, [feature])
  | forget _ | clear | release _ | releaseAll => none

/-- The features whose bindings a call may change. -/
def Touches : Call → FeatureId → Prop
  | resolveAll _ _ features, other => other ∈ features.map Feature.id
  | resolve _ _ feature, other => other = feature.id
  | forget _, _ | clear, _ => False
  | release feature, other => other = feature
  | releaseAll, _ => True

end Call

def Value.timed : Value := .object [(timeKey, .bool true)]

/-- The layer with one field that depends on time, as flat as a layer can be. -/
def OrderedTree.probe (field : String) : OrderedTree :=
  empty.insert field ⟨.expression (.constant .timed), Value.ordered_of_not_joins rfl⟩

/-- A resolution: what it was asked for, and the fields that it gave. -/
structure Origin where
  layer : Tree
  tree : Tree
  feature : Feature
  fields : List (String × Value)

/-- The latest resolution of every feature that was not answered from the store, until the feature is
released. -/
abbrev Ledger := FeatureId → Option Origin

namespace Ledger

def empty : Ledger := fun _ => none

def set (ledger : Ledger) (feature : FeatureId) (origin : Option Origin) : Ledger :=
  fun other => if other = feature then origin else ledger other

end Ledger

namespace Pipeline

variable {κ σ : Type} [KeySupply κ]

/-- Carries out a call. Gives the bags of the features that were resolved. -/
def perform (p : Pipeline σ) (r : Registry κ σ) : Call → Turn κ σ (List (Bag σ))
  | .resolveAll layer upper features =>
    p.resolveAll r layer (upper.map OrderedTree.toTree) features
  | .resolve layer upper feature =>
    let turn := p.resolve r layer (upper.map OrderedTree.toTree) feature
    ⟨turn.result.map fun bag => [bag], turn.pipeline, turn.registry, turn.events⟩
  | .forget feature => ⟨.ok [], (p.forget feature).2, r, []⟩
  | .clear => ⟨.ok [], p.clear, r, []⟩
  | .release feature =>
    let turn := p.release r feature
    ⟨turn.result.map fun _ => [], turn.pipeline, turn.registry, turn.events⟩
  | .releaseAll =>
    let turn := p.releaseAll r
    ⟨turn.result.map fun _ => [], turn.pipeline, turn.registry, turn.events⟩

/-- The ledger after a feature is resolved. -/
def visited (p : Pipeline σ) (r : Registry κ σ) (layer tree : Tree) (feature : Feature)
    (ledger : Ledger) : Ledger :=
  match p.stored? r tree feature with
  | some _ => ledger
  | none =>
    ledger.set feature.id (some ⟨layer, tree, feature, (p.fieldsOf layer tree feature).1⟩)

def visitedEach (p : Pipeline σ) (r : Registry κ σ) (layer tree : Tree) :
    List Feature → Ledger → Ledger
  | [], ledger => ledger
  | feature :: features, ledger =>
    let first := p.resolveIn r layer tree feature
    first.pipeline.visitedEach first.registry layer tree features
      (p.visited r layer tree feature ledger)

def recorded (p : Pipeline σ) (r : Registry κ σ) (ledger : Ledger) : Call → Ledger
  | .resolveAll layer upper features => p.visitedEach r layer (layer.layered upper) features ledger
  | .resolve layer upper feature => p.visited r layer (layer.layered upper) feature ledger
  | .forget _ | .clear => ledger
  | .release feature => ledger.set feature none
  | .releaseAll => Ledger.empty

/-- The bindings held for a feature, none if there are none. -/
def heldFields (p : Pipeline σ) (feature : FeatureId) : Fields (Binding σ) :=
  (p.held.get? feature).getD []

def Holds (p : Pipeline σ) (feature : FeatureId) (field : String) (binding : Binding σ) : Prop :=
  (p.heldFields feature).get? field = some binding

/-- The key of a binding that is held for some field. -/
def Remembers (p : Pipeline σ) (key : Key) : Prop :=
  ∃ feature field binding, p.Holds feature field binding ∧ binding.key = key

end Pipeline
end FeatureStyle
