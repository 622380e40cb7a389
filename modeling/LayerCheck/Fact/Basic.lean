import LayerCheck.Refinement.Basic

/-! Facts: what a layer has established about an identifier. A fact stands under three names, the
layer that wrote it, the identifier it is about and the aspect it describes. -/
namespace LayerCheck

inductive Fact where
  | text (text : String)
  /-- Type names in order, such as argument types followed by the return type. -/
  | types (names : List String)
  | refined (ty : RefinedType)
  | signature (signature : Signature)
deriving DecidableEq, Repr

namespace Fact

def render : Fact → String
  | text s => s
  | types names => " -> ".intercalate names
  | refined ty => ty.render
  | signature s => s.render

def types? : Fact → Option (List String)
  | types names => some names
  | _ => none

/-- The three names under which a fact stands. -/
structure Place where
  layer : String
  identifier : String
  key : String
deriving DecidableEq, Repr

end Fact

end LayerCheck
