import FeatureStyle.Value.Digest
import FeatureStyle.Value.Equality

/-!
# Property trees

A tree is the root object of the properties that a layer declares.
-/

namespace FeatureStyle

structure Tree where
  fields : Fields Value

namespace Tree

def empty : Tree := ⟨[]⟩

def toValue (t : Tree) : Value := .object t.fields

def get? (t : Tree) (field : String) : Option Value := t.fields.get? field

def contains (t : Tree) (field : String) : Bool := t.fields.contains field

def insert (t : Tree) (field : String) (value : Value) : Tree := ⟨t.fields.insert field value⟩

def erase (t : Tree) (field : String) : Tree := ⟨t.fields.erase field⟩

def size (t : Tree) : Nat := t.fields.length

/-- The nesting depth, in which the root counts as one. -/
def depth (t : Tree) : Nat := t.toValue.depth

def hasExpression (t : Tree) : Bool := t.toValue.hasExpression

/-- What a hasher is fed for a tree. -/
def digest (t : Tree) : List Write := .word t.fields.length :: Value.digestFields t.fields

protected def beq (a b : Tree) : Bool := a.toValue == b.toValue

instance : BEq Tree := ⟨Tree.beq⟩

end Tree
end FeatureStyle
