import LayerCheck.Number.Word
import LayerCheck.Text.Location
import LayerCheck.Text.Similar

/-! What a layer finds wrong with a program: a cause, a place when one is known, and hints. -/
namespace LayerCheck

inductive Fault.Cause where
  | duplicate (layer identifier key : String)
  | unresolved (identifier layer : String)
  | malformed (message : String)
  | typeMismatch (expected found : String)
  | argumentCount (function : String) (expected found : Nat)
  | subtype (expected actual : String)
  | unsupported (feature : String)
  | forwardReference (function name : String) (position : Nat)
  | nameCollision (name : String)
  | controlFlow (message : String)
  | solver (message : String)
  /-- The check itself broke off. -/
  | broken (op : WordOp)
deriving DecidableEq, Repr

structure Fault where
  cause : Fault.Cause
  loc : Option Location
  hints : List String
deriving DecidableEq, Repr

namespace Fault

namespace Cause

def message : Cause → String
  | duplicate layer identifier key =>
    s!"Duplicate annotation: '{key}' of '{identifier}' is already defined in layer '{layer}'"
  | unresolved identifier layer =>
    s!"Unresolved reference: '{identifier}' has no '{layer}' annotation in scope"
  | malformed message => s!"Malformed annotation: {message}"
  | typeMismatch expected found => s!"Type mismatch: expected {expected}, found {found}"
  | argumentCount function expected found =>
    s!"Function {function} expects {expected} arguments, but {found} were given"
  | subtype expected actual => s!"Refinement violated: {actual} is not a subtype of {expected}"
  | unsupported feature => s!"Feature not supported: {feature}"
  | forwardReference function name position =>
    s!"Invalid signature for {function}: argument {position} refers to '{name}' before it is bound"
  | nameCollision name => s!"Name '{name}' collides with a canonical argument name"
  | controlFlow message => s!"Control flow error: {message}"
  | solver message => s!"Solver error: {message}"
  | broken op => op.message

/-- The name of a cause in a machine-readable report. -/
def label : Cause → String
  | duplicate .. => "DuplicateAnnotation"
  | unresolved .. => "UnresolvedReference"
  | malformed .. => "MalformedAnnotation"
  | typeMismatch .. => "TypeMismatch"
  | argumentCount .. => "ArgumentCount"
  | subtype .. => "Subtype"
  | unsupported .. => "FeatureNotSupported"
  | forwardReference .. => "FunctionDefinition"
  | nameCollision .. => "CanonicalNameCollision"
  | controlFlow .. => "ControlFlow"
  | solver .. => "Solver"
  | broken .. => "Panic"

inductive Field where
  | text (value : String)
  | count (value : Nat)
deriving DecidableEq, Repr

/-- The parts of a cause in a machine-readable report. -/
def fields : Cause → List (String × Field)
  | duplicate layer identifier key =>
    [("layer", .text layer), ("identifier", .text identifier), ("key", .text key)]
  | unresolved identifier layer => [("identifier", .text identifier), ("layer", .text layer)]
  | malformed message => [("message", .text message)]
  | typeMismatch expected found => [("expected", .text expected), ("found", .text found)]
  | argumentCount function expected found =>
    [("function", .text function), ("expected", .count expected), ("found", .count found)]
  | subtype expected actual => [("expected", .text expected), ("actual", .text actual)]
  | unsupported feature => [("feature", .text feature)]
  | forwardReference function name position =>
    [("function", .text function), ("variable", .text name), ("argument_idx", .count position)]
  | nameCollision name => [("name", .text name)]
  | controlFlow message => [("message", .text message)]
  | solver message => [("message", .text message)]
  | broken _ => []

end Cause

/-- The operation at which a check broke off, if that is what happened. -/
def broken? (f : Fault) : Option WordOp :=
  match f.cause with
  | .broken op => some op
  | _ => none

def ofCause (cause : Cause) : Fault := ⟨cause, none, []⟩

/-- A cause found at a place. -/
def located (cause : Cause) (loc : Location) : Fault := ⟨cause, some loc, []⟩

/-- Adds a place to a fault that has none. -/
def orLoc (f : Fault) (loc : Location) : Fault := { f with loc := some (f.loc.getD loc) }

def malformed (message : String) : Fault := ofCause (.malformed message)

/-- A name that nothing declares, with up to three hints at names within two edits of it. -/
def unresolved (identifier layer : String) (loc : Location) (candidates : List String) : Fault :=
  let similar := (Text.similarNames identifier candidates 2).take 3
  ⟨.unresolved identifier layer, some loc, similar.map fun s => s!"Did you mean '{s}'?"⟩

/-- The whole text of a fault: its place, its cause, and one line for each hint. -/
def render (f : Fault) : String :=
  let place := match f.loc with
    | some loc => loc.render ++ ": "
    | none => ""
  place ++ f.cause.message ++ String.join (f.hints.map ("\n  hint: " ++ ·))

end Fault

end LayerCheck
