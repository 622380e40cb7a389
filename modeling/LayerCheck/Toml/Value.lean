/-! Values of a TOML document. Floats and times are told apart from other values, but what they stand
for is not kept. -/
namespace LayerCheck

/-- How a table came to be, on which it depends what may still be added to it. -/
inductive Toml.Origin where
  /-- Written as a value, in braces. -/
  | inline
  /-- The root, or opened by a header of its own. -/
  | header
  /-- Named on the way to another table in that table's header. -/
  | implied
  /-- Named on the way to a value in a dotted key. -/
  | dotted
deriving DecidableEq, Repr

inductive Toml where
  | text (value : String)
  | int (value : Int)
  | float
  | bool (value : Bool)
  | time
  | array (items : List Toml)
  | table (origin : Toml.Origin) (entries : List (String × Toml))
  /-- Tables under one name, each opened by a header in double brackets. -/
  | tables (items : List (List (String × Toml)))
deriving Repr

namespace Toml

/-- The entries of a table, in the order of writing. -/
abbrev Entries := List (String × Toml)

/-- Replaces the value of a name that is present. -/
def replace (name : String) (v : Toml) (entries : Entries) : Entries :=
  entries.map fun (k, w) => if k = name then (k, v) else (k, w)

/-- Applies a change to the last table of a list, which must have one. -/
def changeLast (change : Entries → Option Entries) (items : List Entries) : Option (List Entries) := do
  let last ← items.getLast?
  let last ← change last
  return items.dropLast ++ [last]

/-! ### Adding a value under a key -/

/-- Adds a value under a dotted key, its last name given apart. The tables on the way are made as
needed; none of them may have a header of its own, and the last may only have been made by dotted keys. -/
def assign (path : List String) (key : String) (v : Toml) (origin : Origin) (entries : Entries) :
    Option Entries :=
  match path with
  | [] => if origin = .implied ∨ (entries.lookup key).isSome then none else some (entries ++ [(key, v)])
  | name :: path =>
    match entries.lookup name with
    | none => do
      let made ← assign path key v .dotted []
      return entries ++ [(name, .table .dotted made)]
    | some (.table .dotted inner) => do
      let inner ← assign path key v .dotted inner
      return replace name (.table .dotted inner) entries
    | some (.table .implied inner) => do
      let inner ← assign path key v .implied inner
      return replace name (.table .implied inner) entries
    | some (.tables items) => do
      let items ← changeLast (assign path key v .implied) items
      return replace name (.tables items) entries
    | some _ => none

/-! ### Opening a table -/

/-- Applies a change to the table that a header names before its last name; tables on the way are made
as needed, and of tables under one name the last is meant. -/
def changeAt (change : Entries → Option Entries) : List String → Entries → Option Entries
  | [], entries => change entries
  | name :: path, entries =>
    match entries.lookup name with
    | none => do
      let made ← changeAt change path []
      return entries ++ [(name, .table .implied made)]
    | some (.table .inline _) => none
    | some (.table origin inner) => do
      let inner ← changeAt change path inner
      return replace name (.table origin inner) entries
    | some (.tables items) => do
      let items ← changeLast (changeAt change path) items
      return replace name (.tables items) entries
    | some _ => none

/-- Opens a table by its header, if it has none yet. -/
def openTable (name : String) (entries : Entries) : Option Entries :=
  match entries.lookup name with
  | none => some (entries ++ [(name, .table .header [])])
  | some (.table .implied inner) => some (replace name (.table .header inner) entries)
  | some _ => none

/-- Opens one more of the tables under a name. -/
def openNext (name : String) (entries : Entries) : Option Entries :=
  match entries.lookup name with
  | none => some (entries ++ [(name, .tables [[]])])
  | some (.tables items) => some (replace name (.tables (items ++ [[]])) entries)
  | some _ => none

/-- Adds a value to the table that a header opened last. -/
def assignIn (opened : List String) (path : List String) (key : String) (v : Toml) (root : Entries) :
    Option Entries :=
  changeAt (assign path key v .header) opened root

end Toml

end LayerCheck
