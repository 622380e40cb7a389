import LayerCheck.Config.Basic
import LayerCheck.Toml.Reader
import LayerCheck.Toml.Writer

/-! Options as a TOML document: one table for each group, one entry for each option. What a document
leaves out has its default, and what no option is named for is ignored. A group may also be given as an
array of its options in order. -/
namespace LayerCheck

namespace ErrorFormat

def name : ErrorFormat → String
  | default => "default"
  | json => "json"
  | compact => "compact"

def ofName? : String → Option ErrorFormat
  | "default" => some default
  | "json" => some json
  | "compact" => some compact
  | _ => none

end ErrorFormat

/-- Why a document gives no options. -/
inductive ConfigError where
  | syntactic
  | negativeBound (bound : Int)
  | noCapacity
deriving DecidableEq, Repr

def ConfigError.message : ConfigError → String
  | syntactic => "Failed to parse config"
  | negativeBound bound => s!"liquid.solver_bound must be non-negative, got {bound}"
  | noCapacity => "liquid.cache_capacity must be at least 1"

namespace Config

/-! ### Reading -/

def readBool : Toml → Option Bool
  | .bool b => some b
  | _ => none

def readInt : Toml → Option Int
  | .int n => some n
  | _ => none

def readNat : Toml → Option Nat
  | .int n => if 0 ≤ n then some n.toNat else none
  | _ => none

def readText : Toml → Option String
  | .text s => some s
  | _ => none

def readTexts : Toml → Option (List String)
  | .array items => items.mapM readText
  | _ => none

/-- A format by its name, or as a table with that name and nothing under it. -/
def readFormat : Toml → Option ErrorFormat
  | .text s => ErrorFormat.ofName? s
  | .table _ [(name, .table _ [])] => ErrorFormat.ofName? name
  | .table _ [(name, .array [])] => ErrorFormat.ofName? name
  | _ => none

/-- The options of a group, by name or position. -/
abbrev Group := String → Nat → Option Toml

def group : Option Toml → Option Group
  | none | some .time => some fun _ _ => none
  | some (.table _ entries) => some fun name _ => entries.lookup name
  | some (.array items) => some fun _ i => items[i]?
  | some (.tables items) => some fun _ i => (items[i]?).map (Toml.table .header)
  | some _ => none

/-- An option, or its default if it is not given. -/
def optional {α : Type} (read : Toml → Option α) (dflt : α) : Option Toml → Option α
  | none => some dflt
  | some v => read v

def readCheck (g : Group) : Option CheckOptions := do
  let dflt : CheckOptions := {}
  let raiseOnError ← optional readBool dflt.raiseOnError (g "raise_on_error" 0)
  let controlFlow ← optional readBool dflt.controlFlow (g "control_flow" 1)
  return { raiseOnError, controlFlow }

def readLiquid (g : Group) : Option LiquidOptions := do
  let dflt : LiquidOptions := {}
  let solverBound ← optional readInt dflt.solverBound (g "solver_bound" 0)
  let maxAssignments ← optional readNat dflt.maxAssignments (g "max_assignments" 1)
  let cacheCapacity ← optional readNat dflt.cacheCapacity (g "cache_capacity" 2)
  return { solverBound, maxAssignments, cacheCapacity }

def readErrors (g : Group) : Option ErrorOptions := do
  let dflt : ErrorOptions := {}
  let maxErrors ← optional readNat dflt.maxErrors (g "max_errors" 0)
  let showSuggestions ← optional readBool dflt.showSuggestions (g "show_suggestions" 1)
  let color ← optional readBool dflt.color (g "color" 2)
  let format ← optional readFormat dflt.format (g "format" 3)
  return { maxErrors, showSuggestions, color, format }

def readLayers (g : Group) : Option LayerOptions := do
  let disabled ← optional readTexts [] (g "disabled" 0)
  return { disabled }

/-- The options that the entries of a document give. -/
def ofEntries (entries : Toml.Entries) : Option Config := do
  let check ← readCheck (← group (entries.lookup "check"))
  let liquid ← readLiquid (← group (entries.lookup "liquid"))
  let errors ← readErrors (← group (entries.lookup "errors"))
  let layers ← readLayers (← group (entries.lookup "layers"))
  return { check, liquid, errors, layers }

/-- Options that a check can work with. -/
def validate (c : Config) : Except ConfigError Config :=
  if c.liquid.solverBound < 0 then .error (.negativeBound c.liquid.solverBound)
  else if c.liquid.cacheCapacity = 0 then .error .noCapacity
  else .ok c

/-- Reads options from a document. -/
def parse (s : String) : Except ConfigError Config :=
  match (Toml.parse s).bind ofEntries with
  | none => .error .syntactic
  | some c => c.validate

/-! ### Writing -/

/-- The document that gives some options, each of them in it. -/
def render (c : Config) : String :=
  "\n".intercalate
    ["[check]",
      s!"raise_on_error = {c.check.raiseOnError}",
      s!"control_flow = {c.check.controlFlow}",
      "",
      "[liquid]",
      s!"solver_bound = {c.liquid.solverBound}",
      s!"max_assignments = {c.liquid.maxAssignments}",
      s!"cache_capacity = {c.liquid.cacheCapacity}",
      "",
      "[errors]",
      s!"max_errors = {c.errors.maxErrors}",
      s!"show_suggestions = {c.errors.showSuggestions}",
      s!"color = {c.errors.color}",
      "format = " ++ Toml.written c.errors.format.name,
      "",
      "[layers]",
      "disabled = " ++ Toml.writtenArray c.layers.disabled,
      ""]

end Config

end LayerCheck
