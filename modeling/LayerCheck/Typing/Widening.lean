/-! The primitive types and which of them may stand for which. -/
namespace LayerCheck.Widening

def primitives : List String := ["byte", "short", "int", "long", "float", "double", "bool", "str"]

def isNumeric (ty : String) : Bool := ["byte", "short", "int", "long", "float", "double"].contains ty

/-- The types, other than itself, that a type may stand for. -/
def wider : String → List String
  | "byte" => ["short", "int", "long"]
  | "short" => ["int", "long"]
  | "int" => ["long"]
  | "float" => ["double"]
  | _ => []

/-- Whether a value of one type may be used where another is expected. -/
def widens (source target : String) : Bool := source == target || (wider source).contains target

/-- The wider of two types, if one may stand for the other. -/
def join? (a b : String) : Option String :=
  if widens a b then some b else if widens b a then some a else none

end LayerCheck.Widening
