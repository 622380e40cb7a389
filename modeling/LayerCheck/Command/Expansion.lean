import LayerCheck.Command.FileTree
import LayerCheck.Command.Wildcard

/-! The source files that paths stand for. A file stands for itself, and a folder for all source files
below it. A folder's path is itself taken as a pattern. -/
namespace LayerCheck

def sourceExtension : String := "strata"

namespace Expansion

/-- A place met while following a pattern: how its path is written, and where it is. -/
structure Place where
  path : String
  position : List String
deriving DecidableEq, Repr

/-- What following a pattern comes to. -/
inductive Visit where
  | reached (p : Place)
  /-- A folder that cannot be read, because its path is too long. -/
  | unreadable (path : String)
deriving DecidableEq, Repr

/-- The path of something in a folder, written in full. -/
def append (path name : String) : String := if path.endsWith "/" then path ++ name else path ++ "/" ++ name

/-- Whether a path is a way to write the folder `.`. -/
def isHere (path : String) : Bool :=
  path.startsWith "." && (FileTree.splitPath path.toList).all fun part => part = ['.'] || part.isEmpty

/-- The path of something in a folder; the folder `.` is not written. -/
def join (path name : String) : String := if isHere path then name else append path name

/-! ### Steps of a pattern -/

/-- One step of a pattern: to the entries of a folder, or to all that is below it, by a name that fits. -/
inductive Step where
  | entry (ws : List Wildcard)
  | below (ws : List Wildcard)
deriving DecidableEq, Repr

/-- The steps for the parts of a path. A double star, or several in a row, lets the part that follows
stand at any depth. -/
def steps (deep : Bool) : List (List Wildcard) → List Step
  | [] => []
  | ws :: parts =>
    if ws = [.anyFolders] then steps true parts
    else (if deep then .below ws else .entry ws) :: steps false parts

mutual

/-- Visits everything below something whose name fits, each folder before what it holds. -/
def visitBelow (ws : List Wildcard) (p : Place) : FileTree → List Visit
  | .file _ => []
  | .folder entries =>
    if FileTree.isTooLong p.path then [.unreadable p.path] else visitEntries ws p entries

/-- Visits some entries of a folder and everything below them, as far as their names fit. -/
def visitEntries (ws : List Wildcard) (p : Place) : List (String × FileTree) → List Visit
  | [] => []
  | (name, t) :: entries =>
    let inner : Place := ⟨join p.path name, p.position ++ [name]⟩
    (if Wildcard.fits ws name.toList then [.reached inner] else []) ++ visitBelow ws inner t ++
      visitEntries ws p entries

end

/-- Goes from a place to one at a new path, unless that path is too long. -/
def visitPart (root : FileTree) (p : Place) (path part : String) : List Visit :=
  match root.step p.position part with
  | .ok position => if FileTree.isTooLong path then [] else [.reached ⟨path, position⟩]
  | .error _ => []

/-- Follows a part of a path without wildcards. -/
def followLiteral (root : FileTree) (part : String) (p : Place) : List Visit :=
  if isHere p.path ∧ part = "" then [] else visitPart root p (join p.path part) part

/-- Follows a part with wildcards among the entries of a folder. Only a pattern that begins with a dot is
tried on the folder itself and the one around it. -/
def followEntries (root : FileTree) (ws : List Wildcard) (p : Place) (entries : List (String × FileTree)) :
    List Visit :=
  let dots := if ws.head? = some (.char '.') then ["..", "."] else []
  ((dots.filter fun part => Wildcard.fits ws part.toList).flatMap fun part =>
      visitPart root p (append p.path part) part) ++
    (entries.filter fun (name, _) => Wildcard.fits ws name.toList).map fun (name, _) =>
      .reached ⟨join p.path name, p.position ++ [name]⟩

/-- Follows one step of a pattern. -/
def follow (root : FileTree) (step : Step) (p : Place) : List Visit :=
  match step, root.node? p.position with
  | _, none => []
  | .below ws, some t => visitBelow ws p t
  | .entry ws, some t =>
    match Wildcard.literal? ws, t with
    | some part, _ => followLiteral root (String.ofList part) p
    | none, .file _ => []
    | none, .folder entries =>
      if FileTree.isTooLong p.path then [.unreadable p.path] else followEntries root ws p entries

/-- Follows one step of a pattern from wherever the steps before it led. -/
def followAll (root : FileTree) (visits : List Visit) (step : Step) : List Visit :=
  visits.flatMap fun
    | .reached p => follow root step p
    | visit => [visit]

/-! ### Files of a pattern -/

/-- The pattern for the source files below a folder. -/
def patternFor (path : String) : String := path ++ "/**/*." ++ sourceExtension

/-- What a pattern leads to. -/
def visits (root : FileTree) (here : List String) (pattern : String) :
    Except Wildcard.Error (List Visit) := do
  let cs := pattern.toList
  let _ ← Wildcard.parse cs
  let absolute := cs.head? = some '/'
  let parts := FileTree.splitPath (if absolute then cs.dropWhile (· == '/') else cs)
  let parts ← parts.mapM Wildcard.parse
  let start : Place := if absolute then ⟨"/", []⟩ else ⟨".", here⟩
  return (steps false parts).foldl (followAll root) [.reached start]

inductive Error where
  | missing (path : String)
  | pattern (e : Wildcard.Error)
deriving DecidableEq, Repr

def Error.message : Error → String
  | missing path => s!"Path not found: {path}"
  | pattern e => s!"Glob pattern error: {e.message}"

/-- The files that paths stand for, and the folders that could not be read on the way. -/
structure Listing where
  files : Except Error (List String)
  unreadable : List String

/-- The file at the end of a visit. -/
def fileOf? (root : FileTree) : Visit → Option String
  | .reached p =>
    if (root.node? p.position).any (·.isFile) && !FileTree.isTooLong p.path then some p.path else none
  | .unreadable _ => none

def unreadable? : Visit → Option String
  | .reached _ => none
  | .unreadable path => some path

/-- Lists the files that some paths stand for, in the order of the paths, up to the first path that stands
for nothing. -/
def list (root : FileTree) (here : List String) : List String → Listing
  | [] => ⟨.ok [], []⟩
  | path :: paths =>
    let rest := list root here paths
    match root.find here path with
    | .error _ => ⟨.error (.missing path), []⟩
    | .ok (.file _) => { rest with files := rest.files.map (path :: ·) }
    | .ok (.folder _) =>
      match visits root here (patternFor path) with
      | .error e => ⟨.error (.pattern e), []⟩
      | .ok found =>
        ⟨rest.files.map (found.filterMap (fileOf? root) ++ ·), found.filterMap unreadable? ++ rest.unreadable⟩

/-- The lines that tell of folders that could not be read. -/
def Listing.warnings (l : Listing) : String :=
  String.join (l.unreadable.map fun path =>
    s!"Error accessing path: attempting to read `{path}` resulted in an error: " ++
      AccessError.tooLong.message ++ "\n")

end Expansion

end LayerCheck
