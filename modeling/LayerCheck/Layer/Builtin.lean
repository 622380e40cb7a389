import LayerCheck.Config.Basic
import LayerCheck.Layer.Registry
import LayerCheck.Refinement.Declared
import LayerCheck.Typing.Primitive

/-! The layers that are always at hand: declared types, primitive types and refined types. -/
namespace LayerCheck

namespace Layer

/-- The verdict of a check that only records facts. -/
def verdictOf (r : Recording Unit) (table : FactTable) : Verdict :=
  let (outcome, table) := r.run.run table
  { table, outcome }

def readTypeList (text : String) : Except Fault Fact := do
  let (_, names) ← TypeList.parse text
  return .types names

def readLiquid (text : String) : Except Fault Fact := do
  match ← LiquidType.parse text with
  | .value ty => return .refined ty
  | .function s => return .signature s

def declaredTypes : Layer where
  name := Declared.layerName
  check tree table := verdictOf (Declared.check tree) table
  parseType := some readTypeList

def primitiveTypes : Layer where
  name := Primitive.layerName
  dependencies := [Declared.layerName]
  check tree table := verdictOf (Primitive.check tree) table
  parseType := some readTypeList

/-- The check of refined types by a solver with a cache, whose uses are counted. -/
def checkLiquid (options : LiquidOptions) (tree : Tree) (table : FactTable) : Verdict :=
  let solver : Solver := ⟨options.solverBound, options.maxAssignments⟩
  let cache := Cache.empty options.cacheCapacity
  let (declarations, table) :=
    (Liquid.recordAll ⟨[], []⟩ (tree.declarationsFor Liquid.layerName)).run.run table
  let (outcome, cache) := match declarations with
    | .error fault => (Except.error fault, cache)
    | .ok ds => Liquid.checkProgram (Cache.ask solver.settle) cache ds.vars ds.functions tree.statements
  { table, outcome, counters := [("solver_queries", cache.queries), ("cache_hits", cache.hits)] }

def refinedTypes (options : LiquidOptions) : Layer where
  name := Liquid.layerName
  check tree table := checkLiquid options tree table
  parseType := some readLiquid

end Layer

/-- The registry of the layers that are always at hand. -/
def Registry.builtin (config : Config) : Registry :=
  [Layer.declaredTypes, Layer.primitiveTypes, Layer.refinedTypes config.liquid].foldl
    (fun r layer => r.register layer.name layer) (.empty config.layers.disabled)

end LayerCheck
