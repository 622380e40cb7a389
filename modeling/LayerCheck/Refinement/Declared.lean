import LayerCheck.Fact.Recording
import LayerCheck.Program.Declarations
import LayerCheck.Refinement.Check
import LayerCheck.Refinement.Reader
import LayerCheck.Typing.TypeList

/-! The refined types that a program declares. -/
namespace LayerCheck.Liquid

/-- The declared types of variables, and of functions with positional argument names. -/
structure Declarations where
  vars : NameMap RefinedType
  functions : NameMap Signature
deriving Repr

/-- Writes the declarations of the layer, and gives them with those found before. -/
def recordAll (found : Declarations) : List Declaration → Recording Declarations
  | [] => return found
  | d :: ds => do
    match ← Recording.ofExcept ((LiquidType.parse d.text).mapError (·.orLoc d.loc)) with
    | .value ty =>
      Recording.write ⟨layerName, d.identifier, Subject.variableType.key⟩ (.refined ty) d.loc
      recordAll { found with vars := found.vars.insert d.identifier ty } ds
    | .function s =>
      let canonical ← Recording.ofExcept ((Canonical.signature d.identifier s).mapError (·.orLoc d.loc))
      Recording.write ⟨layerName, d.identifier, Subject.functionType.key⟩ (.signature canonical) d.loc
      recordAll { found with functions := found.functions.insert d.identifier canonical } ds

end LayerCheck.Liquid
