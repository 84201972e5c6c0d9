import FeatureStyle.Numeral.Decimal
import FeatureStyle.Table

/-!
# JSON documents

Documents keep apart integers and other numbers, since an integer is written back with all its
digits. Members of an object are listed in the order of their keys.
-/

namespace FeatureStyle

inductive JsonNumber
  | integer (n : Int)
  | double (x : Double)
deriving DecidableEq

namespace JsonNumber

def toDouble : JsonNumber → Double
  | .integer n => Double.ofInt n
  | .double x => x

end JsonNumber

/-- The printer of numbers. It belongs to the library that writes documents: nothing is fixed here
about where a point or an exponent stands in what it writes. -/
class NumberPrinter where
  /-- The spelling of a number in a document. -/
  text : JsonNumber → String

inductive Json
  | null
  | bool (b : Bool)
  | number (n : JsonNumber)
  | string (s : String)
  | array (items : List Json)
  | object (members : List (String × Json))

instance : Inhabited Json := ⟨.null⟩

namespace Json

def typeName : Json → String
  | null => "null"
  | bool _ => "bool"
  | number _ => "number"
  | string _ => "string"
  | array _ => "array"
  | object _ => "object"

def get? : Json → String → Option Json
  | object members, key => Fields.get? members key
  | _, _ => none

def ofMembers (members : List (String × Json)) : Json := object (Fields.ofList members)

end Json
end FeatureStyle
