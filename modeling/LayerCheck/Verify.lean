import LayerCheck.Program.ControlFlow
import LayerCheck.Program.Declarations
import LayerCheck.Schedule.Run

/-! The whole check of a program: control flow, the layers it declares, and a run of them. -/
namespace LayerCheck

/-- Checks a program by the layers that it names. -/
def verify (r : Registry) (strict controlFlow : Bool) (tree : Tree) : Except Abort (FactTable × Report) := do
  if controlFlow then
    (ControlFlow.check tree.statements).mapError .controlFlow
  let named ← tree.layers.mapError .declaration
  let closure ← Closure.ofNames r named
  Schedule.run strict tree closure .empty

/-- Checks a program strictly, for its facts alone. -/
def compile (r : Registry) (controlFlow : Bool) (tree : Tree) : Except Abort FactTable :=
  (verify r true controlFlow tree).map (·.1)

/-- Reads a program and checks it strictly. -/
def compileSource (r : Registry) (controlFlow : Bool) (source : String) : Except Abort FactTable := do
  let tree ← (Tree.parse source).mapError .syntactic
  compile r controlFlow tree

end LayerCheck
