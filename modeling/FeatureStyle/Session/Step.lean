import FeatureStyle.Description
import FeatureStyle.Session.Basic
import FeatureStyle.Session.Printer

/-!
# Steps of a session

A step is one call of the host. It gives a reply and the events it caused. A step that meets a fault
replies with the fault.
-/

namespace FeatureStyle

/-- A key, given by itself or by a handle to a binding. -/
inductive KeyRef
  | key (key : Key)
  | handle (index : Nat)

/-- What a host can do with the registry. -/
inductive RegistryStep
  | bind (feature : FeatureId) (field : String) (sampler : SamplerSpec)
  | rebind (key : KeyRef) (sampler : SamplerSpec)
  | unbind (key : KeyRef)
  | unbindAll (feature : FeatureId)
  | sample (key : KeyRef)
  | get (key : KeyRef)
  | contains (key : KeyRef)
  | hasShape (key : KeyRef)
  | keysOf (feature : FeatureId)
  | sampleHandle (handle : Nat)
  | compareHandles (a b : Nat)
  | describeHandle (handle : Nat)
  | describe

/-- What a host can do with a pipeline. -/
inductive PipelineStep
  | resolveAll (layer : Tree) (upper : Option Tree) (features : List Feature)
  | resolve (layer : Tree) (upper : Option Tree) (feature : Feature)
  | bindingsOf (feature : FeatureId)
  | forget (feature : FeatureId)
  | clear
  | release (feature : FeatureId)
  | releaseAll
  | settings
  | describe

inductive SessionStep
  | registry (step : RegistryStep)
  | pipeline (index : Nat) (step : PipelineStep)
  | bagField (bag : Nat) (field : String)
  | compareBags (a b : Nat)

/-- A binding and what its sampler gave when the reply was written. -/
structure SampledBinding where
  binding : Binding Sampler
  sample : Value

/-- A bag whose bindings were sampled in the order of their fields. -/
structure SampledBag where
  bag : Bag Sampler
  dynamic : Fields SampledBinding

inductive Reply
  | nothing
  | flag (b : Bool)
  | count (n : Nat)
  | text (s : String)
  | keys (keys : List Key)
  | value (value : Value)
  | value? (value : Option Value)
  | handle (index : Nat) (binding : Binding Sampler)
  | noHandle
  | sameKey (same : Bool)
  | settings (settings : Settings)
  | bag (bag : SampledBag)
  | bags (bags : List SampledBag)
  | bindings (bindings : Option (Fields SampledBinding))
  | bagField (value : Option Value) (key : Option Key)
  | fault (fault : Fault)
  /-- The step names something that the session does not have. -/
  | unknown

structure StepResult where
  reply : Reply
  session : Session
  events : List Event

namespace Session

private def replyWith (s : Session) (reply : Reply) : StepResult := ⟨reply, s, []⟩

def key? (s : Session) : KeyRef → Option Key
  | .key key => some key
  | .handle index => s.handles[index]?.map Binding.key

def addHandle (s : Session) (binding : Binding Sampler) (events : List Event) : StepResult :=
  ⟨.handle s.handles.length binding, { s with handles := s.handles ++ [binding] }, events⟩

def sampleBindings (s : Session) : Fields (Binding Sampler) → Fields SampledBinding × Session
  | [] => ([], s)
  | (field, binding) :: rest =>
    let (value, s) := s.sample binding.sampler
    let (others, s) := s.sampleBindings rest
    ((field, ⟨binding, value⟩) :: others, s)

def sampleBag (s : Session) (bag : Bag Sampler) : SampledBag × Session :=
  let (dynamic, s) := s.sampleBindings bag.dynamic
  (⟨bag, dynamic⟩, s)

def sampleBags (s : Session) : List (Bag Sampler) → List SampledBag × Session
  | [] => ([], s)
  | bag :: bags =>
    let (first, s) := s.sampleBag bag
    let (others, s) := s.sampleBags bags
    (first :: others, s)

/-- The session with a pipeline and the registry as an operation left them. -/
def afterTurn {α : Type} (s : Session) (index : Nat) (turn : Turn KeyStream Sampler α) : Session :=
  { s with
    registry := turn.registry
    stations := s.stations.modify index fun station => { station with pipeline := turn.pipeline } }

private def onKey (s : Session) (ref : KeyRef) (step : Key → StepResult) : StepResult :=
  match s.key? ref with
  | some key => step key
  | none => s.replyWith .unknown

def registryStep (s : Session) : RegistryStep → StepResult
  | .bind feature field spec =>
    let (sampler, s) := s.makeSampler spec
    match s.registry.bind? feature field sampler with
    | none => s.replyWith (.fault .noFreeKey)
    | some (binding, registry, taken) =>
      { s with registry }.addHandle binding (taken.map Event.takenKey)
  | .rebind ref spec =>
    s.onKey ref fun key =>
      let (sampler, s) := s.makeSampler spec
      let (held, registry) := s.registry.rebind key sampler
      { s with registry }.replyWith (.flag held)
  | .unbind ref =>
    s.onKey ref fun key =>
      match s.registry.unbind key with
      | .ok (held, registry) => { s with registry }.replyWith (.flag held)
      | .error fault => s.replyWith (.fault fault)
  | .unbindAll feature =>
    let (count, registry) := s.registry.unbindAll feature
    { s with registry }.replyWith (.count count)
  | .sample ref =>
    s.onKey ref fun key =>
      match s.registry.get? key with
      | none => s.replyWith (.value? none)
      | some binding =>
        let (value, s) := s.sample binding.sampler
        s.replyWith (.value? (some value))
  | .get ref =>
    s.onKey ref fun key =>
      match s.registry.get? key with
      | none => s.replyWith .noHandle
      | some binding => s.addHandle binding []
  | .contains ref => s.onKey ref fun key => s.replyWith (.flag (s.registry.contains key))
  | .hasShape ref =>
    s.onKey ref fun key => s.replyWith (.flag (s.registry.shape.admits key))
  | .keysOf feature => s.replyWith (.keys (s.registry.keysOf feature))
  | .sampleHandle handle =>
    match s.handles[handle]? with
    | none => s.replyWith .unknown
    | some binding =>
      let (value, s) := s.sample binding.sampler
      s.replyWith (.value value)
  | .compareHandles a b =>
    match s.handles[a]?, s.handles[b]? with
    | some a, some b => s.replyWith (.sameKey (a == b))
    | _, _ => s.replyWith .unknown
  | .describeHandle handle =>
    match s.handles[handle]? with
    | some binding => s.replyWith (.text binding.describe)
    | none => s.replyWith .unknown
  | .describe => s.replyWith (.text s.registry.describe)

def pipelineStep (s : Session) (index : Nat) (p : Pipeline Sampler) : PipelineStep → StepResult
  | .resolveAll layer upper features =>
    let turn := p.resolveAll s.registry layer upper features
    let s := s.afterTurn index turn
    match turn.result with
    | .error fault => ⟨.fault fault, s, turn.events⟩
    | .ok bags =>
      let (sampled, s) := { s with bags := s.bags ++ bags }.sampleBags bags
      ⟨.bags sampled, s, turn.events⟩
  | .resolve layer upper feature =>
    let turn := p.resolve s.registry layer upper feature
    let s := s.afterTurn index turn
    match turn.result with
    | .error fault => ⟨.fault fault, s, turn.events⟩
    | .ok bag =>
      let (sampled, s) := { s with bags := s.bags ++ [bag] }.sampleBag bag
      ⟨.bag sampled, s, turn.events⟩
  | .bindingsOf feature =>
    match p.bindingsOf? feature with
    | none => s.replyWith (.bindings none)
    | some bindings =>
      let (sampled, s) := s.sampleBindings bindings
      s.replyWith (.bindings (some sampled))
  | .forget feature =>
    let (dropped, pipeline) := p.forget feature
    let turn : Turn KeyStream Sampler Bool := ⟨.ok dropped, pipeline, s.registry, []⟩
    (s.afterTurn index turn).replyWith (.flag dropped)
  | .clear =>
    let turn : Turn KeyStream Sampler Unit := ⟨.ok (), p.clear, s.registry, []⟩
    (s.afterTurn index turn).replyWith .nothing
  | .release feature =>
    let turn := p.release s.registry feature
    let s := s.afterTurn index turn
    match turn.result with
    | .ok count => s.replyWith (.count count)
    | .error fault => s.replyWith (.fault fault)
  | .releaseAll =>
    let turn := p.releaseAll s.registry
    let s := s.afterTurn index turn
    match turn.result with
    | .ok count => s.replyWith (.count count)
    | .error fault => s.replyWith (.fault fault)
  | .settings => s.replyWith (.settings p.settings)
  | .describe => s.replyWith (.text (p.describe s.registry))

/-- Takes a step. -/
def step (s : Session) : SessionStep → StepResult
  | .registry step => s.registryStep step
  | .pipeline index step =>
    match s.stations[index]? with
    | some station => s.pipelineStep index station.pipeline step
    | none => s.replyWith .unknown
  | .bagField bag field =>
    match s.bags[bag]? with
    | some bag => s.replyWith (.bagField (bag.get? field) ((bag.binding? field).map Binding.key))
    | none => s.replyWith .unknown
  | .compareBags a b =>
    match s.bags[a]?, s.bags[b]? with
    | some a, some b => s.replyWith (.flag (a == b))
    | _, _ => s.replyWith .unknown

/-- How many bags every pipeline has stored. -/
def storedSizes (s : Session) : List Nat := s.stations.map fun station => station.pipeline.store.size

end Session
end FeatureStyle
