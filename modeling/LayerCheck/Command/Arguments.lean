/-! The command line: options and paths. -/
namespace LayerCheck

structure Arguments where
  paths : List String := []
  strict : Bool := false
  controlFlow : Bool := true
  json : Bool := false
  stats : Bool := false
  color : Bool := true
  configPath : Option String := none
  init : Bool := false
  verbose : Bool := false
  logDir : Option String := none
deriving DecidableEq, Repr

/-- The file that `--init` writes. -/
def defaultConfigFile : String := ".stratarc"

inductive UsageError where
  | help
  | missingArgument (option : String)
  | unknownOption (option : String)
deriving DecidableEq, Repr

namespace UsageError

def usage (program : String) : String :=
  "strata - layered type checker\n\n" ++
  s!"USAGE:\n    {program} [OPTIONS] <paths...>\n\n" ++
  "OPTIONS:\n" ++
  "    -h, --help          Print help information\n" ++
  "    --strict            Abort on the first failing layer\n" ++
  "    --no-control-flow   Skip the control-flow pre-pass\n" ++
  "    --json              Print the reports as JSON\n" ++
  "    --stats             Print per-layer timings and solver counters\n" ++
  "    --no-color          Disable colored output\n" ++
  "    --config <path>     Use this config file instead of discovering one\n" ++
  s!"    --init              Write a default {defaultConfigFile} and exit\n" ++
  "    --log-dir <dir>     Write JSON logs to a rolling file in <dir>\n" ++
  "    -v, --verbose       Debug logging on stderr"

def message (program : String) : UsageError → String
  | help => usage program
  | missingArgument option => s!"{option} requires an argument"
  | unknownOption option => s!"Unknown option: {option}\n\n" ++ usage program

end UsageError

namespace Arguments

/-- Reads arguments one after the other, on top of those read before. -/
def readFrom (a : Arguments) : List String → Except UsageError Arguments
  | [] => .ok a
  | "-h" :: _ | "--help" :: _ => .error .help
  | "--strict" :: rest => readFrom { a with strict := true } rest
  | "--no-control-flow" :: rest => readFrom { a with controlFlow := false } rest
  | "--json" :: rest => readFrom { a with json := true } rest
  | "--stats" :: rest => readFrom { a with stats := true } rest
  | "--no-color" :: rest => readFrom { a with color := false } rest
  | "--init" :: rest => readFrom { a with init := true } rest
  | "-v" :: rest | "--verbose" :: rest => readFrom { a with verbose := true } rest
  | ["--config"] => .error (.missingArgument "--config")
  | "--config" :: path :: rest => readFrom { a with configPath := some path } rest
  | ["--log-dir"] => .error (.missingArgument "--log-dir")
  | "--log-dir" :: dir :: rest => readFrom { a with logDir := some dir } rest
  | arg :: rest =>
    if arg.startsWith "-" then .error (.unknownOption arg)
    else readFrom { a with paths := a.paths ++ [arg] } rest

/-- Reads a whole command line; without a path there must be something else to do. -/
def read (args : List String) : Except UsageError Arguments := do
  let a ← readFrom {} args
  if a.paths.isEmpty && !a.init then .error .help else .ok a

/-- The name of the program and its arguments. -/
def splitProgram : List String → String × List String
  | [] => ("strata", [])
  | program :: args => (program, args)

/-- Reads a command line that begins with the name of the program; an error is given as its message. -/
def parse (line : List String) : Except String Arguments :=
  let (program, args) := splitProgram line
  (read args).mapError (·.message program)

end Arguments

end LayerCheck
