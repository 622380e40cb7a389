import LayerCheck.Name.Set
import LayerCheck.Program.Basic
import LayerCheck.Text.Blank

/-! The layer declarations of a program, wherever they stand in its tree. -/
namespace LayerCheck.Tree

/-- All declarations, in source order. -/
def declarations (t : Tree) : List Declaration := t.nodes.filterMap Declaration.ofTree?

def declarationsFor (t : Tree) (layer : String) : List Declaration :=
  t.declarations.filter (·.layer == layer)

/-- The layers that the layer nodes among some trees name; every such node must be a complete declaration. -/
def layersOf : List Tree → NameSet → Except Fault NameSet
  | [], found => .ok found
  | .node .layer loc children :: rest, found =>
    match Declaration.ofChildren? loc children with
    | none =>
      .error (.located (.malformed "layer declaration needs an identifier, a layer name and a type") loc)
    | some d =>
      if d.identifier.isEmpty || d.layer.isEmpty || (Text.trim d.text.toList).isEmpty then
        .error (.located (.malformed s!"incomplete declaration '{d.identifier} : {d.layer} : {d.text}'") loc)
      else layersOf rest (NameSet.insert d.layer found)
  | _ :: rest, found => layersOf rest found

/-- The names of all layers that a program declares something in. -/
def layers (t : Tree) : Except Fault NameSet := layersOf t.nodes []

end LayerCheck.Tree
