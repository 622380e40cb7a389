import LayerCheck.Fault
import LayerCheck.Text.Blank

/-! Lists of type names as a declaration writes them. A single name is the type of a variable; names
divided by arrows are the argument types of a function and then its result, and an arrow in front
stands for no arguments. -/
namespace LayerCheck

/-- What a declared type is the type of. -/
inductive Subject where
  | variableType | functionType
deriving DecidableEq, Repr

/-- The key of a fact about a subject. -/
def Subject.key : Subject → String
  | variableType => "type"
  | functionType => "fun_type"

namespace TypeList

/-- The parts of a text between arrows. -/
def splitArrows : List Char → List (List Char)
  | [] => [[]]
  | '-' :: '>' :: cs => [] :: splitArrows cs
  | c :: cs =>
    match splitArrows cs with
    | [] => [[c]]
    | part :: parts => (c :: part) :: parts

/-- Reads a type list, and tells what it is the type of. -/
def parse (text : String) : Except Fault (Subject × List String) :=
  match (splitArrows text.toList).map fun part => String.ofList (Text.trim part) with
  | [name] => if name.isEmpty then .error (.malformed "empty type") else .ok (.variableType, [name])
  | parts =>
    let names := match parts with
      | "" :: rest => rest
      | parts => parts
    match names.findIdx? (·.isEmpty) with
    | some i => .error (.malformed s!"missing type at position {i} in '{text}'")
    | none => .ok (.functionType, names)

end TypeList

end LayerCheck
