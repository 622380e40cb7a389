import LayerCheck.Fault
import LayerCheck.Name.Map
import LayerCheck.Refinement.Basic

/-! Positional names for the arguments of a signature. Argument `i` is called `$argi`, so that a call can
fill in its arguments whatever names the author chose. A table from the author's names to the positional
ones grows from left to right; a predicate is rewritten by the table that includes its own position, so
that a name used again shadows the earlier one from there on. -/
namespace LayerCheck.Canonical

def nameAt (position : Nat) : String := s!"$arg{position}"

def isDigits (cs : List Char) : Bool := !cs.isEmpty && cs.all Char.isDigit

/-- Whether a name is spelled like a positional one. -/
def isName (name : String) : Bool :=
  match name.toList with
  | '$' :: 'a' :: 'r' :: 'g' :: digits => isDigits digits
  | _ => false

/-- Rewrites a predicate, unless a name that the table leaves alone looks positional. -/
def resolve (table : NameMap Term) (predicate : Term) : Except Fault Term :=
  match predicate.freeVars.find? fun x => !table.contains x && isName x with
  | some name => .error (.ofCause (.nameCollision name))
  | none => .ok (predicate.subst table.get?)

/-- Rewrites the refinements of the arguments from a position on. -/
def argumentsFrom (position : Nat) (table : NameMap Term) :
    List (Option Refinement) → Except Fault (List (Option Refinement))
  | [] => .ok []
  | none :: rest => do
    let rest' ← argumentsFrom (position + 1) table rest
    return none :: rest'
  | some r :: rest => do
    let table := table.insert r.name (.var (nameAt position))
    let predicate ← resolve table r.predicate
    let rest' ← argumentsFrom (position + 1) table rest
    return some ⟨nameAt position, predicate⟩ :: rest'

/-- Rewrites the refinements of all arguments; an absent one keeps its position and binds nothing. -/
def arguments (args : List (Option Refinement)) : Except Fault (List (Option Refinement)) :=
  argumentsFrom 0 [] args

/-- The names bound by some arguments. -/
def boundNames (args : List RefinedType) : List String :=
  args.filterMap fun arg => arg.refinement.map (·.name)

/-- Fails when a predicate mentions a name that only a later argument binds. -/
def checkOrder (function : String) (position : Nat) (earlier : List String) :
    List RefinedType → Except Fault Unit
  | [] => .ok ()
  | arg :: rest =>
    match arg.refinement with
    | none => checkOrder function (position + 1) earlier rest
    | some r =>
      let later := boundNames rest
      match r.predicate.freeVars.find? fun x => x != r.name && !earlier.contains x && later.contains x with
      | some x => .error (.ofCause (.forwardReference function x position))
      | none => checkOrder function (position + 1) (earlier ++ [r.name]) rest

/-- The table of all arguments. -/
def tableFrom (position : Nat) (table : NameMap Term) : List RefinedType → NameMap Term
  | [] => table
  | arg :: rest =>
    match arg.refinement with
    | none => tableFrom (position + 1) table rest
    | some r => tableFrom (position + 1) (table.insert r.name (.var (nameAt position))) rest

/-- Rewrites the result type, which keeps its own bound name. -/
def result (table : NameMap Term) (ret : RefinedType) : Except Fault RefinedType :=
  match ret.refinement with
  | none => .ok ret
  | some r => do
    let predicate ← resolve (table.erase r.name) r.predicate
    return ⟨ret.base, some ⟨r.name, predicate⟩⟩

/-- The signature of a function with positional argument names. -/
def signature (function : String) (s : Signature) : Except Fault Signature := do
  checkOrder function 0 [] s.args
  let refinements ← arguments (s.args.map (·.refinement))
  let ret ← result (tableFrom 0 [] s.args) s.ret
  return ⟨s.args.zipWith (fun arg refinement => ⟨arg.base, refinement⟩) refinements, ret⟩

end LayerCheck.Canonical
