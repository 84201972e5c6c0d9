import FeatureStyle.Bag.Store
import FeatureStyle.Pipeline.Settings
import FeatureStyle.Pipeline.Resolution

/-!
# Pipelines

A pipeline resolves features against a layer with an optional override. Fields that depend on time
become bindings in a registry that several pipelines may share. A pipeline remembers the bindings it
holds for every feature: a field that stays dynamic keeps its key, and a binding is removed when its
field is no longer dynamic or its feature is released.
-/

namespace FeatureStyle

structure Pipeline (σ : Type) where
  settings : Settings
  /-- The hash that bags are stored under. -/
  hash : Tree → UInt64
  /-- The sampler for a field of a feature with a value that depends on time. -/
  sampler : FeatureId → String → Value → σ
  choices : ChoiceTable
  store : BagStore σ
  /-- The bindings held for every feature that has some. -/
  held : Table FeatureId (Fields (Binding σ))

/-- What an operation gives, together with the states behind it. -/
structure Turn (κ σ α : Type) where
  result : Except Fault α
  pipeline : Pipeline σ
  registry : Registry κ σ
  events : List Event

/-- The bindings of one feature while they are brought in line with its dynamic fields. -/
structure Renewal (κ σ : Type) where
  registry : Registry κ σ
  /-- The bindings that were not taken over yet. -/
  previous : Fields (Binding σ)
  current : Fields (Binding σ)
  events : List Event

namespace Renewal

variable {κ σ : Type} [KeySupply κ]

/-- Gives a dynamic field its binding: the previous one if its key is still bound, else a new one. -/
def renew? (s : Renewal κ σ) (feature : FeatureId) (field : String) (sampler : σ) :
    Option (Renewal κ σ) :=
  let previous := s.previous.erase field
  let refreshed := (s.previous.get? field).bind fun old => s.registry.refresh? old.key sampler
  match refreshed with
  | some (binding, registry) =>
    some { s with registry, previous, current := s.current.insert field binding }
  | none =>
    (s.registry.bind? feature field sampler).map fun (binding, registry, taken) =>
      { registry, previous
        current := s.current.insert field binding
        events := s.events ++ taken.map Event.takenKey }

/-- Gives every dynamic field its binding. Stops at the first field for which there is no key. -/
def renewEach (s : Renewal κ σ) (feature : FeatureId) :
    List (String × σ) → Except Fault Unit × Renewal κ σ
  | [] => (.ok (), s)
  | (field, sampler) :: fields =>
    match s.renew? feature field sampler with
    | some s => s.renewEach feature fields
    | none => (.error .noFreeKey, s)

end Renewal

namespace Pipeline

variable {κ σ : Type}

def empty (settings : Settings) (hash : Tree → UInt64)
    (sampler : FeatureId → String → Value → σ) : Pipeline σ :=
  ⟨settings, hash, sampler, [], BagStore.empty settings.capacity, []⟩

def bindingsOf? (p : Pipeline σ) (feature : FeatureId) : Option (Fields (Binding σ)) :=
  p.held.get? feature

/-- Brings the bindings of a feature in line with its dynamic fields. -/
def renewBindings [KeySupply κ] (p : Pipeline σ) (r : Registry κ σ) (feature : FeatureId)
    (dynamic : List (String × Value)) : Turn κ σ (Fields (Binding σ)) :=
  let fields := dynamic.map fun (field, value) => (field, p.sampler feature field value)
  let start : Renewal κ σ := ⟨r, (p.held.get? feature).getD [], [], []⟩
  let without := { p with held := p.held.erase feature }
  match start.renewEach feature fields with
  | (.error fault, s) => ⟨.error fault, without, s.registry, s.events⟩
  | (.ok (), s) =>
    match s.registry.unbindEach (s.previous.map fun entry => entry.2.key) with
    | (.error fault, r) => ⟨.error fault, without, r, s.events⟩
    | (.ok (), r) =>
      let held := if s.current.isEmpty then without.held else without.held.put feature s.current
      ⟨.ok s.current, { p with held }, r, s.events⟩

/-- The bag stored for a tree and a feature, if all its bindings still are in the registry. -/
def stored? (p : Pipeline σ) (r : Registry κ σ) (tree : Tree) (feature : Feature) :
    Option (Bag σ) :=
  if p.settings.keepsBags then
    (p.store.get? (p.hash tree) tree feature).filter fun bag =>
      bag.dynamic.all fun entry => r.contains entry.2.key
  else none

/-- Keeps a bag in the store, if bags are kept. -/
def keep (p : Pipeline σ) (tree : Tree) (feature : Feature) (bag : Bag σ) :
    Pipeline σ × List Event :=
  if p.settings.keepsBags then
    let (evicted, store) := p.store.insert (p.hash tree) tree feature bag
    ({ p with store }, evicted.map Event.evicted)
  else (p, [])

/-- The fields of a feature and what was met on the way. The tree is the layer with the override
laid over it. -/
def fieldsOf (p : Pipeline σ) (layer tree : Tree) (feature : Feature) :
    List (String × Value) × Progress :=
  let depth := tree.depth
  let limit := p.settings.depthLimit
  if limit < depth then
    (layer.fallback limit,
      ⟨p.choices, [.degraded depth limit], [.degraded feature.id depth limit]⟩)
  else Tree.resolveRoot feature tree.fields ⟨p.choices, [], []⟩

/-- Resolves a feature, given the layer and the tree. -/
def resolveIn [KeySupply κ] (p : Pipeline σ) (r : Registry κ σ) (layer tree : Tree)
    (feature : Feature) : Turn κ σ (Bag σ) :=
  match p.stored? r tree feature with
  | some bag => ⟨.ok bag, p, r, [.reused feature.id]⟩
  | none =>
    let (fields, progress) := p.fieldsOf layer tree feature
    let (dynamic, static) := fields.partition fun entry => entry.2.isTimed
    let renewed := { p with choices := progress.choices }.renewBindings r feature.id dynamic
    match renewed.result with
    | .error fault =>
      ⟨.error fault, renewed.pipeline, renewed.registry, progress.events ++ renewed.events⟩
    | .ok bindings =>
      let bag : Bag σ := ⟨feature.id, static, bindings, progress.warnings⟩
      let (pipeline, evictions) := renewed.pipeline.keep tree feature bag
      ⟨.ok bag, pipeline, renewed.registry, progress.events ++ renewed.events ++ evictions⟩

def layered (layer : Tree) : Option Tree → Tree
  | some upper => layer.overlay upper
  | none => layer

def layeringEvents (layer : Tree) : Option Tree → List Event
  | some upper => (layer.mismatches upper).map Event.mismatch
  | none => []

/-- Resolves one feature. -/
def resolve [KeySupply κ] (p : Pipeline σ) (r : Registry κ σ) (layer : Tree)
    (upper : Option Tree) (feature : Feature) : Turn κ σ (Bag σ) :=
  let turn := p.resolveIn r layer (layered layer upper) feature
  { turn with events := layeringEvents layer upper ++ turn.events }

/-- Resolves features one after the other, given the layer and the tree. -/
def resolveEach [KeySupply κ] (p : Pipeline σ) (r : Registry κ σ) (layer tree : Tree) :
    List Feature → Turn κ σ (List (Bag σ))
  | [] => ⟨.ok [], p, r, []⟩
  | feature :: features =>
    let first := p.resolveIn r layer tree feature
    match first.result with
    | .error fault => ⟨.error fault, first.pipeline, first.registry, first.events⟩
    | .ok bag =>
      let rest := first.pipeline.resolveEach first.registry layer tree features
      { rest with
        result := rest.result.map fun bags => bag :: bags
        events := first.events ++ rest.events }

/-- Resolves features, which must have distinct identifiers. -/
def resolveAll [KeySupply κ] (p : Pipeline σ) (r : Registry κ σ) (layer : Tree)
    (upper : Option Tree) (features : List Feature) : Turn κ σ (List (Bag σ)) :=
  if (features.map Feature.id).Nodup then
    let turn := p.resolveEach r layer (layered layer upper) features
    { turn with events := layeringEvents layer upper ++ turn.events }
  else ⟨.error .repeatedFeature, p, r, []⟩

/-- Drops the stored bag of a feature and tells whether there was one. -/
def forget (p : Pipeline σ) (feature : FeatureId) : Bool × Pipeline σ :=
  let (dropped, store) := p.store.forget feature
  (dropped, { p with store })

def clear (p : Pipeline σ) : Pipeline σ := { p with store := p.store.clear, choices := [] }

/-- Removes the bindings of a feature and its stored bag. Gives the number of bindings. -/
def release (p : Pipeline σ) (r : Registry κ σ) (feature : FeatureId) : Turn κ σ Nat :=
  let (_, dropped) := p.forget feature
  match p.held.get? feature with
  | none => ⟨.ok 0, dropped, r, []⟩
  | some bindings =>
    let (result, r) := r.unbindEach (bindings.map fun entry => entry.2.key)
    ⟨result.map fun _ => bindings.length, { dropped with held := p.held.erase feature }, r, []⟩

/-- Removes the bindings of all features and clears the pipeline. Gives the number of bindings. -/
def releaseAll (p : Pipeline σ) (r : Registry κ σ) : Turn κ σ Nat :=
  let bindings := p.held.flatMap fun entry => entry.2
  let without := { p with held := [] }
  match r.unbindEach (bindings.map fun entry => entry.2.key) with
  | (.ok (), r) => ⟨.ok bindings.length, without.clear, r, []⟩
  | (.error fault, r) => ⟨.error fault, without, r, []⟩

end Pipeline
end FeatureStyle
