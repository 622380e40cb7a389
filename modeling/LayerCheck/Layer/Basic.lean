import LayerCheck.Fact.Table
import LayerCheck.Name.Map
import LayerCheck.Syntax.Parse

/-! Layers: named typing passes over a program. A layer says which layers must succeed before it and
which must wait for it, and checks a program by adding facts to the shared table. -/
namespace LayerCheck

/-- The outcome of one layer's check. A failed check leaves the facts it had written by then; whoever
runs the layer takes them back. -/
structure Verdict where
  table : FactTable
  outcome : Except Fault Unit
  counters : List (String × Nat) := []
  /-- Nanoseconds spent, as far as they are known. -/
  elapsed : Nat := 0

structure Layer where
  name : String
  dependencies : NameSet := []
  /-- The layers that must not start before this one has succeeded. -/
  runBefore : NameSet := []
  check : Tree → FactTable → Verdict
  /-- Reads the text of a declaration, for a layer that has a syntax of its own. -/
  parseType : Option (String → Except Fault Fact) := none

/-- What ends a check before there is a report. -/
inductive Abort where
  | syntactic (error : SyntaxError)
  | unknownLayer (name : String)
  | cycle (layers : List String)
  | layerFailure (layer : String) (fault : Fault)
  | controlFlow (fault : Fault)
  | declaration (fault : Fault)
  | unreadable (reason : String)

namespace Abort

def cycleText (layers : List String) : String :=
  "Cycle in layer dependencies: " ++ " -> ".intercalate layers

def layerText (layer : String) (fault : Fault) : String := s!"[{layer}] {fault.render}"

def message : Abort → String
  | syntactic e => e.render
  | unknownLayer name => s!"Unknown layer: '{name}'"
  | cycle layers => cycleText layers
  | layerFailure layer fault => layerText layer fault
  | controlFlow fault => fault.render
  | declaration fault => fault.render
  | unreadable reason => s!"I/O error: {reason}"

def loc? : Abort → Option Location
  | syntactic e => some e.loc
  | layerFailure _ fault => fault.loc
  | controlFlow fault => fault.loc
  | declaration fault => fault.loc
  | _ => none

def layer? : Abort → Option String
  | layerFailure layer _ => some layer
  | _ => none

def fault? : Abort → Option Fault
  | layerFailure _ fault => some fault
  | controlFlow fault => some fault
  | declaration fault => some fault
  | _ => none

def broken? (e : Abort) : Option WordOp := e.fault?.bind Fault.broken?

end Abort

end LayerCheck
