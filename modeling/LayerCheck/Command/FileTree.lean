import LayerCheck.Name.Map

/-! Files and folders, and how a path leads to one. -/
namespace LayerCheck

inductive FileTree where
  | file (content : ByteArray)
  /-- Names with what stands under them, in increasing order. -/
  | folder (entries : List (String × FileTree))

/-- Why nothing can be read at a path. -/
inductive AccessError where
  | missing
  | notFolder
  | isFolder
  | notText
  | badPath
  | tooLong
deriving DecidableEq, Repr

def AccessError.message : AccessError → String
  | missing => "No such file or directory (os error 2)"
  | notFolder => "Not a directory (os error 20)"
  | isFolder => "Is a directory (os error 21)"
  | notText => "stream did not contain valid UTF-8"
  | badPath => "file name contained an unexpected NUL byte"
  | tooLong => "File name too long (os error 36)"

namespace FileTree

def isFile : FileTree → Bool
  | file _ => true
  | folder _ => false

def isFolder (t : FileTree) : Bool := !t.isFile

/-- What stands under the names of a position, from the root on. -/
def node? : FileTree → List String → Option FileTree
  | t, [] => some t
  | folder entries, name :: position => (entries.lookup name).bind (node? · position)
  | file _, _ :: _ => none

/-- Puts a file or folder at a position, making the folders on the way. A folder that is there already
stays when an empty one is put in its place. -/
def add (new : FileTree) : List String → FileTree → FileTree
  | [], folder entries =>
    match new with
    | folder [] => folder entries
    | new => new
  | [], file _ => new
  | name :: position, folder entries =>
    folder (NameMap.insert name (add new position ((entries.lookup name).getD (folder []))) entries)
  | _ :: _, file content => file content

/-- The parts of a path between slashes. -/
def splitPath : List Char → List (List Char)
  | [] => [[]]
  | c :: cs =>
    if c = '/' then [] :: splitPath cs
    else match splitPath cs with
      | [] => [[c]]
      | part :: parts => (c :: part) :: parts

/-- The most bytes that a name may have. -/
def maxNameBytes : Nat := 255

/-- The most bytes that a path may have. -/
def maxPathBytes : Nat := 4095

def isTooLong (path : String) : Bool := maxPathBytes < path.utf8ByteSize

/-- Goes one part of a path on from a position; every part asks for a folder there. -/
def step (root : FileTree) (position : List String) (part : String) : Except AccessError (List String) :=
  match root.node? position with
  | none => .error .missing
  | some (file _) => .error .notFolder
  | some (folder entries) =>
    if part = "" ∨ part = "." then .ok position
    else if part = ".." then .ok position.dropLast
    else if maxNameBytes < part.utf8ByteSize then .error .tooLong
    else if (entries.lookup part).isSome then .ok (position ++ [part])
    else .error .missing

/-- The position that a path leads to from a folder. -/
def resolve (root : FileTree) (here : List String) (path : String) : Except AccessError (List String) :=
  let cs := path.toList
  if cs.isEmpty then .error .missing
  else if cs.contains '\x00' then .error .badPath
  else if isTooLong path then .error .tooLong
  else
    let start := if cs.head? = some '/' then [] else here
    ((splitPath cs).map String.ofList).foldlM (step root) start

def find (root : FileTree) (here : List String) (path : String) : Except AccessError FileTree := do
  let position ← root.resolve here path
  match root.node? position with
  | some t => .ok t
  | none => .error .missing

/-- The text of the file at a path. -/
def readText (root : FileTree) (here : List String) (path : String) : Except AccessError String := do
  match ← root.find here path with
  | folder _ => .error .isFolder
  | file content =>
    match String.fromUTF8? content with
    | some text => .ok text
    | none => .error .notText

end FileTree

end LayerCheck
