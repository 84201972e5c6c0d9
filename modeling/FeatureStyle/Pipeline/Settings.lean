/-!
# Settings of a pipeline

Two bounds: on the depth of the trees that are resolved, and on the number of bags that are kept.
-/

namespace FeatureStyle

structure Settings where
  /-- The depth of the deepest tree that is resolved with its expressions; the root counts as one. -/
  depthLimit : Nat
  /-- How many bags are kept; none are if it is zero. -/
  capacity : Nat
  depthLimit_pos : 0 < depthLimit

namespace Settings

def standardDepthLimit : Nat := 64

def standardCapacity : Nat := 4096

def ofOptions (depthLimit capacity : Option Nat) : Settings where
  depthLimit := max 1 (depthLimit.getD standardDepthLimit)
  capacity := capacity.getD standardCapacity
  depthLimit_pos := by omega

def keepsBags (settings : Settings) : Bool := 0 < settings.capacity

end Settings
end FeatureStyle
