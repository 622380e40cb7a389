import LayerCheck.Fault
import LayerCheck.Solver.Elimination
import LayerCheck.Solver.Odometer
import LayerCheck.Solver.Refutation

/-! Deciding queries. Values are tried first: integers from a window around zero and next to the literals
of the query, and both truth values. A counterexample settles the query, and so does a search over
truth values alone. Otherwise a query counts as valid only when it is refuted that it has a
counterexample, and as invalid only when a candidate of the refutation is one; it is an error if
neither comes out. -/
namespace LayerCheck

inductive SolverError where
  | evaluation (e : EvalError)
  /-- There is no integer of that index to try. -/
  | outOfRange (index : Nat)
  | undecided (q : Query) (doubt : Doubt)
  | broken (op : WordOp)
deriving DecidableEq, Repr

def SolverError.message : SolverError → String
  | evaluation e => e.message
  | outOfRange index => s!"no integer at index {index}"
  | undecided q doubt => s!"cannot decide '{q.render}': {doubt.message}"
  | broken op => op.message

def SolverError.fault : SolverError → Fault
  | broken op => .ofCause (.broken op)
  | e => .ofCause (.solver e.message)

structure Solver where
  bound : Int
  maxAssignments : Nat
deriving DecidableEq, Repr

namespace Solver

/-- The integers from `-bound` to `bound`. -/
def window (bound : Int) : List Int := (List.range (2 * bound + 1).toNat).map fun i : Nat => (i : Int) - bound

/-- The literals of a query and their neighbours, in order. -/
def landmarks (q : Query) : List Int :=
  Ascending.ofList (q.literals.flatMap fun n => [n, clamp64 (n - 1), clamp64 (n + 1)])

/-- The integers to try, in order: the window, and the landmarks outside it. -/
def domain (s : Solver) (q : Query) : List Int :=
  if s.bound < 0 then landmarks q
  else
    (landmarks q).filter (· < -s.bound) ++ window s.bound ++ (landmarks q).filter (s.bound < ·)

/-- The number of integers to try. -/
def domainSize (s : Solver) (q : Query) : Nat :=
  if s.bound < 0 then (landmarks q).length
  else
    ((landmarks q).filter (· < -s.bound)).length + (2 * s.bound + 1).toNat +
      ((landmarks q).filter (s.bound < ·)).length

theorem length_domain (s : Solver) (q : Query) : (s.domain q).length = s.domainSize q := by
  rw [domain, domainSize]
  split
  · rfl
  · simp [window, Nat.add_assoc]

/-- The number of values to try for a base type, given that of the integers. -/
def sizeOf (ints : Nat) : BaseType → Nat
  | .int => ints
  | .bool => 2

/-- The number of assignments to some bindings, unless it exceeds an unsigned 64-bit word. -/
def searchSpace (ints : Nat) : List Binding → Nat → Option Nat
  | [], total => some total
  | b :: bs, total =>
    let product := total * sizeOf ints b.base
    if product < 18446744073709551616 then searchSpace ints bs product else none

/-- The value of a base type at an index. -/
def valueAt? (ints : Array Int) : BaseType → Nat → Option Value
  | .int, i => ints[i]?.map .int
  | .bool, i => some (.bool (i == 1))

/-- The values of some bindings at their indices. -/
def envAt (ints : Array Int) : List Binding → List Nat → Except SolverError Env
  | b :: bs, i :: indices =>
    match valueAt? ints b.base i with
    | none => .error (.outOfRange i)
    | some v => do return (b.name, v) :: (← envAt ints bs indices)
  | _, _ => .ok []

/-- Whether the values at some indices are a counterexample. -/
def refutedAt (q : Query) (ints : Array Int) (indices : List Nat) : Except SolverError Bool := do
  let env ← envAt ints q.bindings indices
  (q.refutedBy .word env).mapError .evaluation

/-- Whether a query has a counterexample among the given integers. Its first binding varies fastest. -/
def hasCounterexample (q : Query) (ints : List Int) : Except SolverError Bool :=
  Odometer.search (refutedAt q ints.toArray) (q.bindings.map fun b => sizeOf ints.length b.base)
    (q.bindings.map fun _ => 0)

/-- The values that a model gives to some bindings, if its integers are words. -/
def envOf? (m : Model) : List Binding → Option Env
  | [] => some []
  | b :: bs => do
    let v ← match b.base with
      | .int =>
        let n := (m.ints.get? b.name).getD 0
        if fits64 n then some (Value.int n) else none
      | .bool => some (Value.bool ((m.bools.get? b.name).getD false))
    return (b.name, v) :: (← envOf? m bs)

/-- Whether a model is a counterexample. -/
def confirms (q : Query) (m : Model) : Bool :=
  match envOf? m q.bindings with
  | none => false
  | some env =>
    match q.refutedBy .word env with
    | .ok refuted => refuted
    | .error _ => false

/-- Settles a query by refutation. -/
def byRefutation (q : Query) : Except SolverError Bool :=
  match Refutation.ofQuery q with
  | .unsatisfiable => .ok true
  | .undecided candidates doubt =>
    if candidates.any (confirms q) then .ok false else .error (.undecided q doubt)
  | .broken op => .error (.broken op)

/-- Whether there are few enough assignments to try them all. -/
def affordable (s : Solver) (q : Query) (ints : Nat) : Bool :=
  match searchSpace ints q.bindings 1 with
  | some size => size ≤ s.maxAssignments
  | none => false

/-- Settles a query from which no more bindings can be eliminated. -/
def settleReduced (s : Solver) (q : Query) : Except SolverError Bool :=
  if s.affordable q (s.domainSize q) then do
    if ← hasCounterexample q (s.domain q) then return false
    else if q.bindings.all (·.base == .bool) then return true
    else byRefutation q
  else byRefutation q

/-- Whether a query holds for all values of its bindings. -/
def settle (s : Solver) (q : Query) : Except SolverError Bool := s.settleReduced q.eliminate

end Solver

end LayerCheck
