import LayerCheck.Solver.Cases

/-! Showing that a query has no counterexample. Premises and negated conclusion are split into cases, and
each case is a set of linear constraints from which the variables are eliminated one by one: every
lower bound of a variable is combined with every upper bound. A case in which a false constraint turns
up has no solution. From any other case values are rebuilt, the last variable eliminated first; they
are candidates for a counterexample, to be checked against the query itself. -/
namespace LayerCheck

/-- A variable that was eliminated and the constraints that mentioned it. -/
structure Stage where
  name : String
  constraints : List Linear
deriving DecidableEq, Repr

/-- Why a computation on forms has no result. -/
inductive Stop where
  /-- A checked operation left the range of words, or no integer was found. -/
  | refused
  /-- An operation that is not checked broke off. -/
  | broken (op : WordOp)
deriving DecidableEq, Repr

namespace Stop

def orRefused {α : Type} : Option α → Except Stop α
  | some a => .ok a
  | none => .error .refused

def orBroken {α : Type} (r : Except WordOp α) : Except Stop α := r.mapError .broken

end Stop

inductive Elimination where
  | infeasible
  /-- Every variable was eliminated; the last one stands first. -/
  | feasible (stages : List Stage)
  | tooLarge
  | broken (op : WordOp)
deriving DecidableEq, Repr

namespace Elimination

/-- The largest number of constraints that is kept. -/
def limit : Nat := 4096

def lowers (x : String) (es : List Linear) : List Linear := es.filter (·.coefficient x < 0)

def uppers (x : String) (es : List Linear) : List Linear := es.filter (0 < ·.coefficient x)

/-- The number of combinations that eliminating a variable makes. -/
def cost (es : List Linear) (x : String) : Nat := (lowers x es).length * (uppers x es).length

/-- The first of the cheapest variables. -/
def cheapest? (cost : String → Nat) : List String → Option String
  | [] => none
  | x :: xs =>
    match cheapest? cost xs with
    | none => some x
    | some y => if cost x ≤ cost y then some x else some y

theorem mem_of_cheapest? {cost : String → Nat} {xs : List String} {x : String}
    (h : cheapest? cost xs = some x) :
    x ∈ xs := by
  induction xs with
  | nil => simp [cheapest?] at h
  | cons y ys ih =>
    rw [cheapest?] at h
    split at h
    · simp_all
    · split at h <;> simp_all

/-- The constraint that follows from a lower and an upper bound of a variable, without that variable. -/
def combine (x : String) (lower upper : Linear) : Except Stop Linear := do
  let factor ← Stop.orBroken (WordOp.opposite (lower.coefficient x)).run
  let scaled ← Stop.orRefused (upper.scale factor)
  let sum ← Stop.orRefused (scaled.addScaled lower (upper.coefficient x))
  Stop.orBroken sum.tighten!

/-- Adds to a set the combinations of some lower bounds of a variable with all its upper bounds. Once the set
is beyond the limit the combinations are still made, but not kept. -/
def combineAll (x : String) (uppers : List Linear) : List Linear → List Linear → Except Stop (List Linear)
  | [], set => .ok set
  | lower :: lowers, set => do
    let new ← uppers.mapM (combine x lower)
    combineAll x uppers lowers (if limit < set.length then set else Linear.addToSet set new)

/-- Eliminates the variables of a set of constraints, the cheapest first. -/
def run (names : List String) (constraints : List Linear) (stages : List Stage) : Elimination :=
  let (closed, mixed) := constraints.partition Linear.isConst
  if closed.any (0 < ·.constant) then .infeasible
  else
    match _h : cheapest? (cost mixed) (names.filter fun x => mixed.any fun e => e.coefficient x != 0) with
    | none => .feasible stages
    | some x =>
      let (mentioning, rest) := mixed.partition (·.coefficient x != 0)
      match combineAll x (uppers x mentioning) (lowers x mentioning) rest with
      | .error .refused => .tooLarge
      | .error (.broken op) => .broken op
      | .ok constraints =>
        if limit < constraints.length then .tooLarge
        else run (names.erase x) constraints (⟨x, mentioning⟩ :: stages)
termination_by names.length
decreasing_by
  have member : x ∈ names := (List.mem_filter.1 (mem_of_cheapest? _h)).1
  rw [List.length_erase_of_mem member]
  have := List.length_pos_of_mem member
  omega

def namesOf (es : List Linear) : NameSet := NameSet.ofList (es.flatMap fun e => e.coefficients.keys)

/-- Eliminates all variables of some constraints. -/
def ofConstraints (es : List Linear) : Elimination := run (namesOf es) es []

end Elimination

namespace Stage

/-- The lower of two upper bounds, of which the first may be missing. -/
def lowerOf (known : Option Int) (bound : Int) : Int := (known.map (min · bound)).getD bound

/-- The higher of two lower bounds, of which the first may be missing. -/
def higherOf (known : Option Int) (bound : Int) : Int := (known.map (max · bound)).getD bound

/-- The bounds on a variable that some constraints give, once the other variables have values. -/
def bounds (x : String) (values : NameMap Int) :
    List Linear → Option Int → Option Int → Except Stop (Option Int × Option Int)
  | [], lower, upper => .ok (lower, upper)
  | e :: rest, lower, upper => do
    let c := e.coefficient x
    let value ← Stop.orRefused (Linear.valueWithout x values e.coefficients e.constant)
    if 0 < c then
      let opposite ← Stop.orRefused (word128 (-value))
      let bound ← Stop.orBroken (WordOp.wholes opposite c).run
      bounds x values rest lower (some (lowerOf upper bound))
    else
      let opposite ← Stop.orRefused (word128 (-c))
      let bound ← Stop.orBroken (ceilDiv! value opposite)
      bounds x values rest (some (higherOf lower bound)) upper

/-- The integer nearest to zero between two bounds, if there is one between them. -/
def nearest : Option Int → Option Int → Option Int
  | some l, some u => if u < l then none else some (max l (min u 0))
  | some l, none => some (max l 0)
  | none, some u => some (min u 0)
  | none, none => some 0

/-- Values for the eliminated variables, the last one eliminated first. -/
def backSubstitute : List Stage → NameMap Int → Except Stop (NameMap Int)
  | [], values => .ok values
  | s :: rest, values => do
    let (lower, upper) ← bounds s.name values s.constraints none none
    let value ← Stop.orRefused (nearest lower upper)
    backSubstitute rest (NameMap.insert s.name value values)

end Stage

/-- Integers and truth values for some variables. -/
structure Model where
  ints : NameMap Int
  bools : NameMap Bool
deriving DecidableEq, Repr

/-- Why a refutation did not succeed. -/
inductive Doubt where
  | manyPremiseCases
  | manyConclusionCases
  | satisfiable
  | fractional
  | tooLarge
deriving DecidableEq, Repr

def Doubt.message : Doubt → String
  | manyPremiseCases => "premises expand to too many cases"
  | manyConclusionCases => "negated conclusion expands to too many cases"
  | satisfiable => "a linear relaxation is satisfiable"
  | fractional => "the linear relaxation has only fractional solutions"
  | tooLarge => "variable elimination grew too large"

inductive Refutation where
  | unsatisfiable
  | undecided (candidates : List Model) (doubt : Doubt)
  | broken (op : WordOp)
deriving DecidableEq, Repr

namespace Refutation

/-- What came of one case. -/
inductive Outcome where
  | closed
  | candidate (model : Model)
  | doubtful (doubt : Doubt)
  | broken (op : WordOp)
deriving DecidableEq, Repr

/-- The settings and the tightened constraints of a case, unless two of its settings contradict. -/
def sort : List Atom → NameMap Bool → List Linear → Except WordOp (Option (NameMap Bool × List Linear))
  | [], settings, es => .ok (some (settings, es))
  | .atMostZero e :: rest, settings, es => do sort rest settings ((← e.tighten!) :: es)
  | .flag x value :: rest, settings, es =>
    match settings.get? x with
    | some known => if known = value then sort rest settings es else .ok none
    | none => sort rest (NameMap.insert x value settings) es

def tryCase (c : List Atom) : Outcome :=
  match sort c [] [] with
  | .error op => .broken op
  | .ok none => .closed
  | .ok (some (settings, es)) =>
    match Elimination.ofConstraints (Linear.toSet es) with
    | .infeasible => .closed
    | .tooLarge => .doubtful .tooLarge
    | .broken op => .broken op
    | .feasible stages =>
      match Stage.backSubstitute stages [] with
      | .ok ints => .candidate ⟨ints, settings⟩
      | .error .refused => .doubtful .fractional
      | .error (.broken op) => .broken op

def Outcome.doubt? : Outcome → Option Doubt
  | closed | broken _ => none
  | candidate _ => some .satisfiable
  | doubtful d => some d

def Outcome.model? : Outcome → Option Model
  | candidate m => some m
  | _ => none

def Outcome.broken? : Outcome → Option WordOp
  | broken op => some op
  | _ => none

/-- Joins the outcomes of all cases. The first case that breaks off is told, or else the first doubt, but growth
goes before the other doubts. -/
def ofOutcomes (outcomes : List Outcome) : Refutation :=
  match outcomes.findSome? Outcome.broken? with
  | some op => .broken op
  | none =>
    let doubts := outcomes.filterMap Outcome.doubt?
    match doubts.find? (· == .tooLarge), doubts with
    | _, [] => .unsatisfiable
    | some d, _ => .undecided (outcomes.filterMap Outcome.model?) d
    | none, d :: _ => .undecided (outcomes.filterMap Outcome.model?) d

/-- The cases in which all of some premises hold. -/
def premiseCases (flags : List String) : List Term → Cases → Option Cases
  | [], cases => some cases
  | p :: ps, cases => do premiseCases flags ps (← Cases.both cases (← Cases.ofTerm? flags p true))

/-- Tries to show that nothing makes the premises true and the conclusion false. -/
def ofQuery (q : Query) : Refutation :=
  let flags := (q.bindings.filter (·.base == .bool)).map (·.name)
  match premiseCases flags q.premises Cases.always with
  | none => .undecided [] .manyPremiseCases
  | some premises =>
    match (Cases.ofTerm? flags q.conclusion false).bind (Cases.both premises) with
    | none => .undecided [] .manyConclusionCases
    | some cases => ofOutcomes (cases.map tryCase)

end Refutation

end LayerCheck
