import FeatureStyle.Pipeline.Basic
import FeatureStyle.Session.KeyStream
import FeatureStyle.Session.Sampler
import FeatureStyle.Value.Digest

/-!
# Sessions

A session is a host at work: one registry, the pipelines that share it, and the handles and bags the
host has received. Calling a sampler may change the session: a counter goes on, a rule counts its
calls, and a sampler may unbind a feature.
-/

namespace FeatureStyle

/-- A pipeline with its sample rule. -/
structure Station where
  pipeline : Pipeline Sampler
  rule : SampleRule
  calls : Nat

structure Session where
  registry : Registry KeyStream Sampler
  stations : List Station
  /-- The next number of every counter. -/
  counters : List Int
  handles : List (Binding Sampler)
  bags : List (Bag Sampler)

def Tree.hash (t : Tree) : UInt64 := Hashable.hash t.digest

namespace Session

def patience : Nat := UInt32.size

/-- A session in which nothing is bound yet. -/
def start (shape : KeyShape) (keys : KeyStream) (stations : List (Settings × SampleRule)) :
    Session where
  registry := Registry.empty shape keys patience
  stations := stations.zipIdx.map fun ((settings, rule), index) =>
    ⟨Pipeline.empty settings Tree.hash (Sampler.field index), rule, 0⟩
  counters := []
  handles := []
  bags := []

/-- The sampler of a description; a counter is set up for it if it needs one. -/
def makeSampler (s : Session) : SamplerSpec → Sampler × Session
  | .constant value => (.constant value, s)
  | .counter start => (.counter s.counters.length, { s with counters := s.counters ++ [start] })
  | .registrySize => (.registrySize, s)
  | .unbindAll feature => (.unbindAll feature, s)

/-- What the rule of a pipeline gives for a field. -/
def sampleField (s : Session) (index : Nat) (feature : FeatureId) (field : String) (value : Value) :
    Value × Session :=
  match s.stations[index]? with
  | none => (.null, s)
  | some station =>
    match station.rule with
    | .unmarked => (value.untimed, s)
    | .path => (.string (feature.text ++ "/" ++ field ++ ":" ++ value.text), s)
    | .calls =>
      let calls := station.calls + 1
      (.number (Double.ofNat calls),
        { s with stations := s.stations.set index { station with calls } })
    | .whole => (value, s)

def sample (s : Session) : Sampler → Value × Session
  | .constant value => (value, s)
  | .counter index =>
    let n := s.counters.getD index 0
    (.number (Double.ofInt n), { s with counters := s.counters.set index (n + 1) })
  | .registrySize => (.number (Double.ofNat s.registry.size), s)
  | .unbindAll feature =>
    let (count, registry) := s.registry.unbindAll feature
    (.number (Double.ofNat count), { s with registry })
  | .field index feature field value => s.sampleField index feature field value

end Session
end FeatureStyle
