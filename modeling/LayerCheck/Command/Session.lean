import LayerCheck.Command.Arguments
import LayerCheck.Command.Expansion
import LayerCheck.Config.Format
import LayerCheck.Diagnostics
import LayerCheck.Layer.Builtin
import LayerCheck.Schedule.Json
import LayerCheck.Text.Lines
import LayerCheck.Verify

/-! One run of the command over a tree of files: which options hold, which files are checked, what is
printed and what is written. -/
namespace LayerCheck

/-- What a run leaves behind. -/
structure Outcome where
  /-- The exit code, or the message of a failure. -/
  result : Except String Nat
  stdout : String := ""
  stderr : String := ""
  /-- Positions and texts of new files. -/
  written : List (List String × String) := []
  /-- The operation at which the run broke off. If there is one, nothing else here comes about. -/
  broken : Option WordOp := none

namespace Session

/-! ### Options -/

inductive LoadError where
  | unreadable (e : AccessError)
  | rejected (e : ConfigError)
deriving DecidableEq, Repr

def LoadError.message : LoadError → String
  | unreadable e => s!"Failed to read config: {e.message}"
  | rejected e => e.message

def load (root : FileTree) (here : List String) (path : String) : Except LoadError Config := do
  let text ← (root.readText here path).mapError .unreadable
  (Config.parse text).mapError .rejected

/-- A position and the folders around it, the innermost first. -/
def upward (position : List String) : List (List String) :=
  (List.range (position.length + 1)).reverse.map position.take

/-- The files in a folder that may give options, in order. -/
def configNames : List String := [defaultConfigFile, "strata.toml"]

/-- The options in the nearest file that gives any; files that give none are passed over. -/
def discover (root : FileTree) (here : List String) : Config :=
  let candidates := (upward here).flatMap fun folder => configNames.map fun name => (folder, name)
  (candidates.findSome? fun (folder, name) => (load root folder name).toOption).getD {}

/-- The options as the arguments change them. -/
def adjust (a : Arguments) (c : Config) : Config :=
  { c with
    check := {
      raiseOnError := c.check.raiseOnError || a.strict
      controlFlow := c.check.controlFlow && a.controlFlow }
    errors := { c.errors with
      color := c.errors.color && a.color
      format := if a.json then .json else c.errors.format } }

def configFor (root : FileTree) (here : List String) (a : Arguments) : Except LoadError Config := do
  let c ← match a.configPath with
    | some path => load root here path
    | none => .ok (discover root here)
  return adjust a c

/-! ### Checking files -/

structure FileReport where
  path : String
  success : Bool
  /-- Absent when the check was ended early. -/
  report : Option Report
  errors : List String
  /-- The operation at which the check broke off, if it did. -/
  broken : Option WordOp := none

def FileReport.toJson (r : FileReport) : JsonValue :=
  .obj [("path", .str r.path), ("success", .bool r.success),
    ("report", (r.report.map Report.toJson).getD .null),
    ("errors", .strs r.errors)]

def verifyFile (root : FileTree) (here : List String) (c : Config) (path : String) : Except Abort Report := do
  let source ← (root.readText here path).mapError fun e => .unreadable e.message
  let tree ← (Tree.parse source).mapError .syntactic
  let (_, report) ← verify (.builtin c) c.check.raiseOnError c.check.controlFlow tree
  return report

def checkFile (root : FileTree) (here : List String) (c : Config) (path : String) : FileReport :=
  match verifyFile root here c path with
  | .ok report => ⟨path, report.success, some report, report.errors, report.broken?⟩
  | .error e => ⟨path, false, none, [e.message], e.broken?⟩

/-! ### Printing -/

def errorLine (o : ErrorOptions) (message : String) : String :=
  if o.color then "\x1b[31m" ++ message ++ "\x1b[0m\n" else message ++ "\n"

def successLine (o : ErrorOptions) (message : String) : String :=
  if o.color then "\x1b[32m" ++ message ++ "\x1b[0m\n" else message ++ "\n"

/-- An error as it is listed. -/
def listed (o : ErrorOptions) (path error : String) : String :=
  let error := if o.showSuggestions then error else Text.dropLines "hint:" error
  let error := if o.format = .compact then error.map fun c => if c = '\n' then ' ' else c else error
  s!"{path}: {error}"

/-- All errors of some files, as far as they are listed. -/
def diagnostics (o : ErrorOptions) (reports : List FileReport) : Diagnostics :=
  (reports.flatMap fun r => r.errors.map (listed o r.path)).foldl Diagnostics.add { limit := o.maxErrors }

def statsText (reports : List FileReport) : String :=
  String.join (reports.filterMap fun r =>
    r.report.map fun report => s!"{r.path}\n{report.metrics.report}\n\n")

/-- The texts for standard output and standard error that sum up a run for people. -/
def summary (o : ErrorOptions) (stats : Bool) (reports : List FileReport) : String × String :=
  let d := diagnostics o reports
  let errors := String.join (d.kept.map (errorLine o))
  let dropped := if 0 < d.dropped then errorLine o s!"... {d.dropped} more error(s) not shown" else ""
  let stats := if stats then statsText reports else ""
  let files := s!"{reports.length} " ++ if reports.length = 1 then "file" else "files"
  if d.hasErrors then
    (stats, errors ++ dropped ++ "\n" ++ errorLine o s!"Found {d.count} error(s) in {files}")
  else
    (stats ++ successLine o s!"✓ Checked {files}, all layers verified", errors ++ dropped)

/-! ### Runs -/

/-- Writes the default options. -/
def writeDefault (root : FileTree) (here : List String) (o : ErrorOptions) : Outcome :=
  match root.find here defaultConfigFile with
  | .ok _ => { result := .error s!"{defaultConfigFile} already exists" }
  | .error _ =>
    { result := .ok 0
      stdout := successLine o s!"Wrote {defaultConfigFile}"
      written := [(here ++ [defaultConfigFile], Config.render {})] }

/-- Checks some files and prints what was found. -/
def checkAll (root : FileTree) (here : List String) (c : Config) (stats : Bool) (files : List String) :
    Outcome :=
  let reports := files.map (checkFile root here c)
  let result := .ok (if reports.all (·.success) then 0 else 1)
  let broken := reports.findSome? (·.broken)
  if c.errors.format = .json then
    { result, stdout := (JsonValue.arr (reports.map FileReport.toJson)).render ++ "\n", broken }
  else
    let (stdout, stderr) := summary c.errors stats reports
    { result, stdout, stderr, broken }

/-- Runs the command in a folder, for a command line that begins with the name of the program. -/
def run (root : FileTree) (here : List String) (line : List String) : Outcome :=
  match Arguments.parse line with
  | .error message => { result := .error message }
  | .ok a =>
    match configFor root here a with
    | .error e => { result := .error e.message }
    | .ok c =>
      if a.init then writeDefault root here c.errors
      else
        let listing := Expansion.list root here a.paths
        let outcome : Outcome := match listing.files with
          | .error e => { result := .error e.message }
          | .ok [] => { result := .error "No paths specified" }
          | .ok files => checkAll root here c a.stats files
        { outcome with stderr := listing.warnings ++ outcome.stderr }

end Session

end LayerCheck
