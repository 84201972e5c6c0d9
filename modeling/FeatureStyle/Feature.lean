import FeatureStyle.Value.Equality

/-!
# Features

A feature is one record of a data source: an identifier, and properties by name that conditions and
results can refer to.
-/

namespace FeatureStyle

structure FeatureId where
  text : String
deriving DecidableEq

structure Feature where
  id : FeatureId
  properties : Fields Value

namespace Feature

def ofId (id : FeatureId) : Feature := ⟨id, []⟩

def get? (f : Feature) (name : String) : Option Value := f.properties.get? name

def set (f : Feature) (name : String) (value : Value) : Feature :=
  { f with properties := f.properties.insert name value }

/-- A property that conditions and results can use: a scalar one. -/
def scalar? (f : Feature) (name : String) : Option Value :=
  (f.get? name).filter Value.isScalar

theorem get?_set (f : Feature) (name other : String) (v : Value) :
    (f.set name v).get? other = if name = other then some v else f.get? other :=
  Fields.get?_insert f.properties name other v

theorem scalar?_set_self (f : Feature) (name : String) {v : Value} (h : v.isScalar = true) :
    (f.set name v).scalar? name = some v := by
  rw [scalar?, get?_set, if_pos rfl, Option.filter_some, if_pos h]

theorem scalar?_set_of_ne (f : Feature) {name other : String} (v : Value) (h : name ≠ other) :
    (f.set name v).scalar? other = f.scalar? other := by
  rw [scalar?, get?_set, if_neg h, scalar?]

protected def beq (a b : Feature) : Bool :=
  a.id == b.id && Value.object a.properties == Value.object b.properties

instance : BEq Feature := ⟨Feature.beq⟩

end Feature
end FeatureStyle
