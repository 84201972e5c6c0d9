import FeatureStyle.Json.Compact
import FeatureStyle.Bag.Basic
import FeatureStyle.Layer.Overlay

/-!
# Events

What operations tell about their course, for diagnostics.
-/

namespace FeatureStyle

inductive Event
  /-- An override replaced a value of another kind. -/
  | mismatch (mismatch : Mismatch)
  /-- A pair of a document is no branch. -/
  | skippedPair (index : Nat) (pair : Json)
  /-- The condition of a branch cannot be read. -/
  | brokenBranch (index : Nat) (condition : String) (error : SyntaxError)
  /-- A candidate for a key was the key of a binding. -/
  | takenKey (key : Key)
  | degraded (feature : FeatureId) (depth limit : Nat)
  /-- A bag was found in the store. -/
  | reused (feature : FeatureId)
  | evicted (feature : FeatureId)

inductive EventLevel
  | trace
  | debug
  | warn
deriving DecidableEq

def EventLevel.label : EventLevel → String
  | trace => "TRACE"
  | debug => "DEBUG"
  | warn => "WARN"

namespace Event

def level : Event → EventLevel
  | mismatch _ | reused _ | evicted _ => .trace
  | skippedPair .. | brokenBranch .. => .debug
  | takenKey _ | degraded .. => .warn

variable [NumberPrinter]

def message : Event → String
  | mismatch m =>
    "merge shape mismatch at " ++ m.path.text ++ ": " ++ m.base.name ++ " replaced by " ++ m.upper.name
  | skippedPair index pair => s!"skipping malformed condition branch {index}: " ++ pair.compact
  | brokenBranch index condition error =>
    s!"branch {index} condition " ++ Text.quoteText condition ++ " skipped: " ++ error.message
  | takenKey key => "binding key collision on " ++ key.text ++ ", regenerating"
  | degraded feature depth limit =>
    "feature " ++ feature.text ++ " degraded: " ++ Warning.depthReason depth limit
  | reused feature => "cache hit for feature " ++ feature.text
  | evicted feature => "evicted cached bag of feature " ++ feature.text

def line (e : Event) : String := e.level.label ++ " " ++ e.message

/-- The events of reading branches: one for every condition that cannot be read. -/
def ofBranches (branches : List Branch) : List Event :=
  branches.zipIdx.filterMap fun (branch, index) =>
    (ParsedBranch.ofBranch branch).error?.map (brokenBranch index branch.condition)

end Event
end FeatureStyle
