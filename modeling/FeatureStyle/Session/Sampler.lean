import FeatureStyle.Feature

/-!
# Samplers

In a session samplers are data. A host describes the ones it binds, and each pipeline has a rule for
the fields that depend on time.
-/

namespace FeatureStyle

/-- A sampler as a host describes it. -/
inductive SamplerSpec
  | constant (value : Value)
  /-- The numbers from the given one on, one a call. -/
  | counter (start : Int)
  | registrySize
  /-- Removes all bindings of a feature and gives their number. -/
  | unbindAll (feature : FeatureId)

inductive Sampler
  | constant (value : Value)
  /-- The session's counter at an index. -/
  | counter (index : Nat)
  | registrySize
  | unbindAll (feature : FeatureId)
  /-- The rule of the pipeline at an index, for a field with a value that depends on time. -/
  | field (pipeline : Nat) (feature : FeatureId) (field : String) (value : Value)

/-- What a pipeline gives for a value that depends on time. -/
inductive SampleRule
  /-- The value without its marker. -/
  | unmarked
  /-- A text of the feature, the field and the value. -/
  | path
  /-- How often this rule was called. -/
  | calls
  /-- The value itself. -/
  | whole

end FeatureStyle
