import LayerCheck.Refinement.Substitution
import LayerCheck.Solver.Query

/-! What is known at one point of a program: the types of its variables, facts about earlier values that
no variable holds any more, and the conditions of the branches around the point. -/
namespace LayerCheck

/-- What is known of a variable. A declared one keeps its type when it is assigned to. -/
structure VariableType where
  ty : RefinedType
  declared : Bool
deriving DecidableEq, Repr

/-- A value that has a name of its own: the result of a call, or a value since overwritten. -/
structure Temporary where
  name : String
  base : BaseType
  fact : Term
deriving DecidableEq, Repr

structure Scope where
  vars : NameMap VariableType
  temporaries : List Temporary
  /-- The conditions in force, the outermost first. -/
  path : List Term
deriving DecidableEq, Repr

namespace Scope

/-- The scope in which all variables are declared ones. -/
def ofDeclared (types : NameMap RefinedType) : Scope := ⟨types.map fun (x, ty) => (x, ⟨ty, true⟩), [], []⟩

def declare (s : Scope) (x : String) (ty : RefinedType) : Scope :=
  { s with vars := s.vars.insert x ⟨ty, true⟩ }

def addCondition (s : Scope) (condition : Term) : Scope := { s with path := s.path ++ [condition] }

def addTemporary (s : Scope) (t : Temporary) : Scope := { s with temporaries := s.temporaries ++ [t] }

def baseOf? (s : Scope) (x : String) : Option BaseType :=
  match s.vars.get? x with
  | some v => some v.ty.base
  | none => (s.temporaries.find? (·.name == x)).map (·.base)

/-! ### Queries -/

/-- A term known to hold, and the name whose value it describes if it describes one. -/
structure Assumption where
  subject : Option String
  fact : Term
deriving DecidableEq, Repr

/-- Everything known in a scope, and a premise besides. -/
def assumptions (s : Scope) (premise : Term) : List Assumption :=
  s.vars.map (fun (x, v) => ⟨some x, v.ty.predicateFor (.var x)⟩) ++
    s.temporaries.map (fun t => ⟨some t.name, t.fact⟩) ++
    s.path.map (fun condition => ⟨none, condition⟩) ++ [⟨none, premise⟩]

namespace Assumption

/-- The names that an assumption is about. -/
def names (a : Assumption) : NameSet :=
  match a.subject with
  | some x => NameSet.insert x a.fact.freeVars
  | none => a.fact.freeVars

/-- An assumption matters to some names when it shares one with them, or is about no name at all. -/
def touches (relevant : NameSet) (a : Assumption) : Bool :=
  a.names.isEmpty || a.names.any relevant.contains

end Assumption

/-- The assumptions that matter to some names. -/
def touched (relevant : NameSet) (known : List Assumption) : List Assumption :=
  known.filter (·.touches relevant)

def untouched (relevant : NameSet) (known : List Assumption) : List Assumption :=
  known.filter (!·.touches relevant)

theorem length_untouched_lt {relevant : NameSet} {known : List Assumption} (h : touched relevant known ≠ []) :
    (untouched relevant known).length < known.length := by
  obtain ⟨a, ha⟩ := List.exists_mem_of_ne_nil _ h
  obtain ⟨mem, touch⟩ := List.mem_filter.1 ha
  exact List.length_filter_lt_length_iff_exists.2 ⟨a, mem, by simp [touch]⟩

/-- The names that matter to some names through the assumptions. -/
def relevantFrom (known : List Assumption) (relevant : NameSet) : NameSet :=
  if _h : touched relevant known = [] then relevant
  else relevantFrom (untouched relevant known)
    (NameSet.union ((touched relevant known).flatMap (·.names)) relevant)
termination_by known.length
decreasing_by exact length_untouched_lt _h

/-- Names with their base types; fails with a name that nothing in the scope binds. -/
def bindings (s : Scope) : List String → Except String (List Binding)
  | [] => .ok []
  | x :: xs =>
    match s.baseOf? x with
    | none => .error x
    | some base => do
      let rest ← s.bindings xs
      return ⟨x, base⟩ :: rest

/-- Whether a premise implies a conclusion, given what of the scope matters to them. -/
def query (s : Scope) (premise conclusion : Term) : Except String Query := do
  let known := s.assumptions premise
  let relevant := relevantFrom known conclusion.freeVars
  let bindings ← s.bindings relevant
  let used := (touched relevant known).map (·.fact)
  return ⟨bindings, used.filter (· != .bool true), conclusion⟩

/-! ### Overwritten values -/

/-- The type with a name for the value that a variable had, where it speaks of that variable. -/
def VariableType.redirect (old new : String) (v : VariableType) : VariableType :=
  match v.declared, v.ty.refinement with
  | false, some r =>
    if r.name = old then v else ⟨.refined v.ty.base r.name (r.predicate.rename old new), false⟩
  | _, _ => v

/-- Lets a temporary stand for the present value of a variable of a type in everything known. -/
def retire (s : Scope) (x : String) (v : VariableType) (temporary : String) : Scope :=
  { vars := s.vars.map fun (y, w) => (y, VariableType.redirect x temporary w)
    temporaries := s.temporaries.map (fun t => { t with fact := t.fact.rename x temporary }) ++
      [⟨temporary, v.ty.base, v.ty.predicateFor (.var temporary)⟩]
    path := s.path.map (Term.rename x temporary) }

end Scope

end LayerCheck
