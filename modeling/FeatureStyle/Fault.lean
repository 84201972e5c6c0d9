import FeatureStyle.Registry.KeyShape

/-!
# Faults

A fault says why an operation of a registry or a pipeline cannot be carried out.
-/

namespace FeatureStyle

inductive Fault
  /-- The key does not have the shape of the keys of the registry. -/
  | foreignKey (key : Key)
  /-- Two features of one pass have the same identifier. -/
  | repeatedFeature
  /-- No free key was found among the candidates that were tried. -/
  | noFreeKey
deriving DecidableEq

def Fault.message : Fault → String
  | foreignKey key => s!"key {key.text} was not issued by this registry"
  | repeatedFeature => "feature ids must be unique within a resolution pass"
  | noFreeKey => "the key supply gave no free key"

end FeatureStyle
