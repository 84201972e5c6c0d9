import FeatureStyle.Value.Path
import FeatureStyle.Layer.Tree

/-!
# Overlays

An override is laid over a base. Objects are joined field by field and arrays item by item; fields and
items that only one side has are kept. In every other case the override replaces the base, and that is
reported if their kinds differ. An expression is always replaced whole.
-/

namespace FeatureStyle

/-- A place where the override replaces a value of another kind. -/
structure Mismatch where
  path : Path
  base : Kind
  upper : Kind
deriving DecidableEq

namespace Value

mutual

/-- The override laid over the base. -/
def overlay : Value → Value → Value
  | object base, object upper => object (Fields.addMissing (overlayFields base upper) upper)
  | array base, array upper => array (overlayItems base upper)
  | _, upper => upper

/-- The fields of the base, each with its override laid over it. -/
def overlayFields : List (String × Value) → List (String × Value) → List (String × Value)
  | [], _ => []
  | (key, b) :: base, upper =>
    let value :=
      match Fields.get? upper key with
      | some o => overlay b o
      | none => b
    (key, value) :: overlayFields base upper

def overlayItems : List Value → List Value → List Value
  | [], upper => upper
  | base, [] => base
  | b :: base, o :: upper => overlay b o :: overlayItems base upper

end

mutual

/-- The mismatches met by laying one value over another at a path, in the order of the base. -/
def mismatches (path : Path) : Value → Value → List Mismatch
  | object base, object upper => mismatchesFields path base upper
  | array base, array upper => mismatchesItems path 0 base upper
  | base, upper => if base.kind = upper.kind then [] else [⟨path, base.kind, upper.kind⟩]

def mismatchesFields (path : Path) :
    List (String × Value) → List (String × Value) → List Mismatch
  | [], _ => []
  | (key, b) :: base, upper =>
    let here :=
      match Fields.get? upper key with
      | some o => mismatches (path ++ [.field key]) b o
      | none => []
    here ++ mismatchesFields path base upper

def mismatchesItems (path : Path) (start : Nat) : List Value → List Value → List Mismatch
  | [], _ => []
  | _, [] => []
  | b :: base, o :: upper =>
    mismatches (path ++ [.index start]) b o ++ mismatchesItems path (start + 1) base upper

end

end Value

namespace Tree

/-- The override laid over the base. -/
def overlay (base upper : Tree) : Tree :=
  ⟨Fields.addMissing (Value.overlayFields base.fields upper.fields) upper.fields⟩

def mismatches (base upper : Tree) : List Mismatch :=
  Value.mismatchesFields [] base.fields upper.fields

def overlayAll : List Tree → Tree
  | [] => empty
  | first :: rest => rest.foldl overlay first

/-- The mismatches met by laying each of the trees over all that came before it. -/
def mismatchesFrom (base : Tree) : List Tree → List Mismatch
  | [] => []
  | upper :: rest => base.mismatches upper ++ mismatchesFrom (base.overlay upper) rest

def mismatchesAll : List Tree → List Mismatch
  | [] => []
  | first :: rest => mismatchesFrom first rest

end Tree
end FeatureStyle
