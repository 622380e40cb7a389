import LayerCheck.Solver.Linear
import LayerCheck.Solver.Query

/-! Predicates as alternatives. A predicate, or its negation, is read as a list of cases, each of which
is a list of linear constraints and of settings of boolean variables. What is not linear is dropped
from its case, so that every solution of the predicate solves a case, though not the other way round. -/
namespace LayerCheck

inductive Atom where
  | atMostZero (e : Linear)
  | flag (name : String) (value : Bool)
deriving DecidableEq, Repr

/-- Alternatives, each of them a conjunction. -/
abbrev Cases := List (List Atom)

namespace Cases

/-- The largest number of cases that is looked at. -/
def limit : Nat := 256

def always : Cases := [[]]

def never : Cases := []

def either (l r : Cases) : Option Cases := if (l ++ r).length ≤ limit then some (l ++ r) else none

def both (l r : Cases) : Option Cases :=
  if limit < l.length * r.length then none else some (l.flatMap fun c => r.map (c ++ ·))

end Cases

/-- Reads a term as a linear form; the names in `flags` stand for truth values. -/
def Linear.ofTerm? (flags : List String) : Term → Option Linear
  | .int value => some (.const value)
  | .var x => if flags.contains x then none else some (.ofName x)
  | .unary .neg t => do (← ofTerm? flags t).scale (-1)
  | .binary .add l r => do (← ofTerm? flags l).addScaled (← ofTerm? flags r) 1
  | .binary .sub l r => do (← ofTerm? flags l).addScaled (← ofTerm? flags r) (-1)
  | .binary .mul l r => do
    let a ← ofTerm? flags l
    let b ← ofTerm? flags r
    if a.isConst then b.scale a.constant else if b.isConst then a.scale b.constant else none
  | _ => none

/-- The comparison that holds exactly when the given one fails. -/
def BinaryOp.opposite : BinaryOp → BinaryOp
  | .eq => .ne
  | .ne => .eq
  | .lt => .ge
  | .le => .gt
  | .gt => .le
  | _ => .lt

namespace Cases

/-- The constraints of a comparison, from the difference of its sides. -/
def ofDifference? (op : BinaryOp) (diff : Linear) : Option Cases := do
  let negated ← diff.scale (-1)
  match op with
  | .eq => return [[.atMostZero diff, .atMostZero negated]]
  | .ne => return [[.atMostZero (← diff.offset 1)], [.atMostZero (← negated.offset 1)]]
  | .lt => return [[.atMostZero (← diff.offset 1)]]
  | .le => return [[.atMostZero diff]]
  | .gt => return [[.atMostZero (← negated.offset 1)]]
  | _ => return [[.atMostZero negated]]

def comparison? (flags : List String) (op : BinaryOp) (l r : Term) : Option Cases := do
  let diff ← (← Linear.ofTerm? flags l).addScaled (← Linear.ofTerm? flags r) (-1)
  ofDifference? op diff

/-- Whether a term has a truth value by its form. -/
def isBoolean (flags : List String) : Term → Bool
  | .bool _ => true
  | .var x => flags.contains x
  | .unary op _ => op == .not
  | .binary op _ _ => !op.isArithmetic
  | .int _ => false

/-- The cases in which a term is true, or in which it is false; none when there are too many. -/
def ofTerm? (flags : List String) : Term → Bool → Option Cases
  | .bool value, positive => some (if value = positive then always else never)
  | .var x, positive => some (if flags.contains x then [[.flag x positive]] else always)
  | .unary .not t, positive => ofTerm? flags t !positive
  | .binary .and l r, positive => do
    let left ← ofTerm? flags l positive
    let right ← ofTerm? flags r positive
    if positive then both left right else either left right
  | .binary .or l r, positive => do
    let left ← ofTerm? flags l positive
    let right ← ofTerm? flags r positive
    if positive then either left right else both left right
  | .binary op l r, positive =>
    if op.isArithmetic then some always
    else if (op == .eq || op == .ne) && isBoolean flags l then do
      let equal := (op == .eq) == positive
      let same ← both (← ofTerm? flags l true) (← ofTerm? flags r equal)
      let other ← both (← ofTerm? flags l false) (← ofTerm? flags r !equal)
      either same other
    else some ((comparison? flags (if positive then op else op.opposite) l r).getD always)
  | .unary .neg _, _ | .int _, _ => some always

end Cases

end LayerCheck
