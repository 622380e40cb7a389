import LayerCheck.Command.Session

/-! The command itself. It loads what a run may look at, namely the files and folders named on the command
line and the places where options are looked for, runs the command over them, and prints and writes
what comes out. -/
namespace LayerCheck

namespace Loading

/-- The names of a path, from the root on. -/
def positionOf (path : String) : List String :=
  ((FileTree.splitPath path.toList).map String.ofList).filter (· ≠ "")

def pathOf (position : List String) : String := "/" ++ "/".intercalate position

/-- The positions that a path goes through from a folder, as its parts say. -/
def stations (here : List String) (path : String) : List (List String) :=
  let start := if path.startsWith "/" then [] else here
  let go (position : List String) (part : String) : List String :=
    if part = "." then position else if part = ".." then position.dropLast else position ++ [part]
  ((positionOf path).foldl (fun (visited, position) part => (go position part :: visited, go position part))
    ([start], start)).1

/-- What stands at a path, and all below it; what cannot be read is left out. -/
partial def loadAll (path : String) : IO (Option FileTree) := do
  let place := (← IO.currentDir) / path
  try
    if ← place.isDir then
      let names := (← place.readDir).toList.map (·.fileName)
      let entries ← names.filterMapM fun name => do
        return (← loadAll (path ++ "/" ++ name)).map fun t => (name, t)
      return some (.folder (NameMap.ofList entries))
    else return some (.file (← IO.FS.readBinFile place))
  catch _ => return none

/-- Adds to a tree what stands at a path. -/
def addPath (here : List String) (root : FileTree) (path : String) : IO FileTree := do
  let mut root := root
  for position in stations here path do
    if ← ((← IO.currentDir) / pathOf position).isDir then
      root := FileTree.add (.folder []) position root
  if let position :: _ := stations here path then
    if let some t ← loadAll (pathOf position) then
      root := FileTree.add t position root
  return root

/-- The tree for a run in a folder with some arguments. -/
def rootFor (here : List String) (args : List String) : IO FileTree := do
  let candidates := (Session.upward here).flatMap fun folder =>
    Session.configNames.map fun name => pathOf (folder ++ [name])
  let named := match Arguments.read args with
    | .ok a => a.paths ++ a.configPath.toList
    | .error _ => []
  let start := FileTree.add (.folder []) here (.folder [])
  (candidates ++ named).foldlM (addPath here) start

end Loading

end LayerCheck

open LayerCheck in
def main (args : List String) : IO UInt32 := do
  let here := Loading.positionOf (← IO.currentDir).toString
  let outcome := Session.run (← Loading.rootFor here args) here ("strata" :: args)
  if let some op := outcome.broken then
    IO.eprintln op.message
    return 101
  IO.print outcome.stdout
  IO.eprint outcome.stderr
  for (position, text) in outcome.written do
    IO.FS.writeFile (Loading.pathOf position) text
  match outcome.result with
  | .ok code => return code.toUInt32
  | .error message =>
    IO.eprintln message
    return 1
