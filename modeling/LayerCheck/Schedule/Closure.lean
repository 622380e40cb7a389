import LayerCheck.Layer.Registry
import LayerCheck.Schedule.Graph

/-! The layers that a program needs: those it names, and those that they ask for in turn, with the
order among them. -/
namespace LayerCheck

/-- A set of layers closed under what they ask for. -/
structure Closure where
  graph : LayerGraph
  handles : NameMap Layer
  /-- The layers that were only asked for by others. -/
  implicit : NameSet

namespace Closure

def empty : Closure := ⟨.empty, [], []⟩

/-- The layers that a layer names. -/
def wants (layer : Layer) : NameSet := NameSet.union layer.runBefore layer.dependencies

/-- Adds a layer and its place in the order. -/
def load (c : Closure) (name : String) (layer : Layer) : Closure :=
  let g := c.graph.addLayer name
  let g := layer.dependencies.foldl (fun g dependency => g.addEdge dependency name) g
  let g := layer.runBefore.foldl (fun g target => g.addEdge name target) g
  { c with graph := g, handles := c.handles.insert name layer }

/-- Adds the layers that a program names, and gives with them all the names that they ask for. -/
def loadNamed (r : Registry) : List String → Closure × NameSet → Except Abort (Closure × NameSet)
  | [], found => .ok found
  | name :: names, (c, wanted) => do
    let layer ← r.find name
    loadNamed r names (c.load name layer, NameSet.union (wants layer) wanted)

/-- Adds the `wanted` layers and those they ask for, the smallest name first. The layers not yet added
are `free`. -/
def loadWanted (free : NameMap Layer) : NameSet → Closure → Except Abort Closure
  | [], c => .ok c
  | name :: wanted, c =>
    if c.handles.contains name then loadWanted free wanted c
    else match _h : free.get? name with
      | none => .error (.unknownLayer name)
      | some layer =>
        let c := c.load name layer
        loadWanted (free.erase name) (NameSet.union (wants layer) wanted)
          { c with implicit := NameSet.insert name c.implicit }
termination_by wanted => (free.length, wanted.length)
decreasing_by
  · exact Prod.Lex.right _ (by simp)
  · exact Prod.Lex.left _ _ (NameMap.length_erase_lt _h)

/-- The closure of the layers `named`. -/
def ofNames (r : Registry) (named : NameSet) : Except Abort Closure := do
  let (c, wanted) ← loadNamed r named (empty, [])
  loadWanted (r.enabled.filter fun (name, _) => !c.handles.contains name) wanted c

end Closure

end LayerCheck
