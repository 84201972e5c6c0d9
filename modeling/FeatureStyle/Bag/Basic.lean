import FeatureStyle.Registry.Basic
import FeatureStyle.Choice.Basic

/-!
# Bags of resolved properties

A bag holds what a feature's properties resolved to: static fields, which are free of expressions, a
binding for every field that depends on time, and warnings.
-/

namespace FeatureStyle

/-- A problem met while a feature was resolved. -/
inductive Warning
  /-- A branch below a field was skipped, since its condition cannot be read. -/
  | brokenBranch (field : String) (defect : Defect)
  /-- The tree is deeper than the limit, so only the layer was used. -/
  | degraded (depth limit : Nat)
deriving DecidableEq

namespace Warning

def depthReason (depth limit : Nat) : String :=
  s!"property tree depth {depth} exceeds limit {limit}"

def message : Warning → String
  | brokenBranch field defect =>
    "field `" ++ field ++ s!"` branch {defect.branch}: " ++ defect.error.message
  | degraded depth limit => "degraded: " ++ depthReason depth limit

def isDegraded : Warning → Bool
  | brokenBranch .. => false
  | degraded .. => true

end Warning

structure Bag (σ : Type) where
  feature : FeatureId
  fields : Fields Value
  dynamic : Fields (Binding σ)
  warnings : List Warning

namespace Bag

variable {σ : Type}

def get? (bag : Bag σ) (field : String) : Option Value := bag.fields.get? field

def binding? (bag : Bag σ) (field : String) : Option (Binding σ) := bag.dynamic.get? field

def isDegraded (bag : Bag σ) : Bool := bag.warnings.any Warning.isDegraded

/-- The names and keys of the dynamic fields. -/
def keys (bag : Bag σ) : Fields Key := bag.dynamic.map fun (field, binding) => (field, binding.key)

/-- Equality of bags, in which bindings are compared by their keys. -/
protected def beq (a b : Bag σ) : Bool :=
  a.feature == b.feature && Value.object a.fields == Value.object b.fields && a.keys == b.keys &&
    a.warnings == b.warnings

instance : BEq (Bag σ) := ⟨Bag.beq⟩

end Bag
end FeatureStyle
