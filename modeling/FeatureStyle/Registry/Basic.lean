import FeatureStyle.Registry.KeySupply
import FeatureStyle.Fault
import FeatureStyle.Feature

/-!
# The binding registry

The registry ties a field of a feature to a sampler under a fresh key. Bindings are found by key, and
an index lists the keys of every feature in the order of binding; features without bindings are not
in the index. What a sampler is, the registry does not ask.
-/

namespace FeatureStyle

/-- A field of a feature that is tied to a sampler. -/
structure Binding (σ : Type) where
  key : Key
  feature : FeatureId
  field : String
  sampler : σ

/-- Two bindings are equal if their keys are. -/
instance {σ : Type} : BEq (Binding σ) := ⟨fun a b => a.key == b.key⟩

structure Registry (κ σ : Type) where
  shape : KeyShape
  supply : κ
  /-- How many candidates for a key, beyond one more than there are bindings, are tried before a
  binding is given up. -/
  patience : Nat
  bindings : Table Key (Binding σ)
  /-- The keys of the bindings of every feature that has some. -/
  index : Table FeatureId (List Key)
  /-- How many candidates were the key of a binding. -/
  collisions : Nat

/-- A free key, the supply behind it, and the candidates passed over. -/
structure FreeKey (κ : Type) where
  key : Key
  supply : κ
  taken : List Key

namespace Registry

variable {κ σ : Type}

def empty (shape : KeyShape) (supply : κ) (patience : Nat) : Registry κ σ :=
  ⟨shape, supply, patience, [], [], 0⟩

def size (r : Registry κ σ) : Nat := r.bindings.length

def get? (r : Registry κ σ) (key : Key) : Option (Binding σ) := r.bindings.get? key

/-- What sampling a key gives, if the key is bound. -/
def sample? (r : Registry κ σ) (read : σ → Value) (key : Key) : Option Value :=
  (r.get? key).map fun binding => read binding.sampler

def contains (r : Registry κ σ) (key : Key) : Bool := r.bindings.contains key

def keysOf (r : Registry κ σ) (feature : FeatureId) : List Key :=
  (r.index.get? feature).getD []

/-- The first of the candidates of a supply that is the key of no binding. -/
def firstFree? [KeySupply κ] (r : Registry κ σ) : Nat → κ → Option (FreeKey κ)
  | 0, _ => none
  | attempts + 1, supply =>
    let (key, supply) := KeySupply.next r.shape supply
    if r.contains key then
      (r.firstFree? attempts supply).map fun found => { found with taken := key :: found.taken }
    else some ⟨key, supply, []⟩

/-- Binds a field to a sampler under a fresh key. Gives the binding, the registry and the candidates
that were passed over. If the candidates differ, one more than there are bindings is enough. -/
def bind? [KeySupply κ] (r : Registry κ σ) (feature : FeatureId) (field : String) (sampler : σ) :
    Option (Binding σ × Registry κ σ × List Key) :=
  (r.firstFree? (r.size + 1 + r.patience) r.supply).map fun found =>
    let binding : Binding σ := ⟨found.key, feature, field, sampler⟩
    let registry := { r with
      supply := found.supply
      bindings := r.bindings.put found.key binding
      index := r.index.put feature (r.keysOf feature ++ [found.key])
      collisions := r.collisions + found.taken.length }
    (binding, registry, found.taken)

/-- Replaces the sampler of a binding, if the key is bound. -/
def rebind (r : Registry κ σ) (key : Key) (sampler : σ) : Bool × Registry κ σ :=
  if r.contains key then
    (true, { r with bindings := r.bindings.update key fun binding => { binding with sampler } })
  else (false, r)

def remove (r : Registry κ σ) (key : Key) : Bool × Registry κ σ :=
  match r.get? key with
  | none => (false, r)
  | some binding =>
    let keys := (r.keysOf binding.feature).filter (· ≠ key)
    let index :=
      if keys.isEmpty then r.index.erase binding.feature else r.index.put binding.feature keys
    (true, { r with bindings := r.bindings.erase key, index })

/-- Removes a binding. A key of another shape than the keys of the registry is refused. -/
def unbind (r : Registry κ σ) (key : Key) : Except Fault (Bool × Registry κ σ) :=
  if r.shape.admits key then .ok (r.remove key) else .error (.foreignKey key)

/-- Removes bindings one after the other, up to the first key that is refused. -/
def unbindEach (r : Registry κ σ) : List Key → Except Fault Unit × Registry κ σ
  | [] => (.ok (), r)
  | key :: keys =>
    match r.unbind key with
    | .ok (_, r) => r.unbindEach keys
    | .error fault => (.error fault, r)

/-- Removes all bindings of a feature and counts them. -/
def unbindAll (r : Registry κ σ) (feature : FeatureId) : Nat × Registry κ σ :=
  let keys := r.keysOf feature
  let bindings := keys.foldl (fun bindings key => bindings.erase key) r.bindings
  (keys.length, { r with bindings, index := r.index.erase feature })

/-- Replaces the sampler behind a key and gives the binding as it then is. -/
def refresh? (r : Registry κ σ) (key : Key) (sampler : σ) : Option (Binding σ × Registry κ σ) :=
  let (held, r) := r.rebind key sampler
  if held then (r.get? key).map fun binding => (binding, r) else none

end Registry
end FeatureStyle
