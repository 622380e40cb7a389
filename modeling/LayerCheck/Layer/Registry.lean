import LayerCheck.Layer.Basic
import LayerCheck.Text.Quoted

/-! The layers that a check may use, by name. -/
namespace LayerCheck

structure Registry where
  layers : NameMap Layer
  /-- Names of layers that count as absent. -/
  disabled : List String

namespace Registry

def empty (disabled : List String) : Registry := ⟨[], disabled⟩

/-- Adds a layer, in place of one of the same name. -/
def register (r : Registry) (name : String) (layer : Layer) : Registry :=
  { r with layers := r.layers.insert name layer }

/-- The layers that are not disabled. -/
def enabled (r : Registry) : NameMap Layer := r.layers.filter (!r.disabled.contains ·.1)

def names (r : Registry) : List String := r.enabled.keys

def contains (r : Registry) (name : String) : Bool := r.enabled.contains name

def find (r : Registry) (name : String) : Except Abort Layer :=
  match r.enabled.get? name with
  | some layer => .ok layer
  | none => .error (.unknownLayer name)

/-- The names of all layers, the disabled ones included. -/
def describe (r : Registry) : String :=
  "LayerRegistry \x7b layers: [" ++ ", ".intercalate (r.layers.keys.map Text.quoted) ++ "] \x7d"

end Registry

end LayerCheck
