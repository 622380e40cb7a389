import LayerCheck.Number.Range

/-! Operations on signed 128-bit words that are done without asking first whether the exact result is a word.
Where it is none, they break off. -/
namespace LayerCheck

/-- The least 128-bit word, which has no opposite. -/
def least128 : Int := -170141183460469231731687303715884105728

/-- An operation on words that may break off. -/
inductive WordOp where
  | magnitude (n : Int)
  | opposite (n : Int)
  | successor (n : Int)
  /-- Quotient and remainder of a division toward zero. -/
  | quotient (n d : Int)
  | remainder (n d : Int)
  /-- Quotient and remainder of a division whose remainder is not negative. -/
  | wholes (n d : Int)
  | residue (n d : Int)
deriving DecidableEq, Repr

namespace WordOp

def exact : WordOp → Int
  | magnitude n => n.natAbs
  | opposite n => -n
  | successor n => n + 1
  | quotient n d => n.tdiv d
  | remainder n d => n.tmod d
  | wholes n d => n / d
  | residue n d => n % d

/-- The exact result is a word; a remainder is out of range where its quotient is. -/
def inRange : WordOp → Bool
  | magnitude n => fits128 n.natAbs
  | opposite n => fits128 (-n)
  | successor n => fits128 (n + 1)
  | quotient n d | remainder n d => d != 0 && fits128 (n.tdiv d)
  | wholes n d | residue n d => d != 0 && fits128 (n / d)

/-- What is told when an operation breaks off. -/
def message : WordOp → String
  | magnitude _ | opposite _ => "attempt to negate with overflow"
  | successor _ => "attempt to add with overflow"
  | quotient _ d | wholes _ d => if d = 0 then "attempt to divide by zero" else "attempt to divide with overflow"
  | remainder _ d | residue _ d =>
    if d = 0 then "attempt to calculate the remainder with a divisor of zero"
    else "attempt to calculate the remainder with overflow"

/-- The exact result, or the operation itself where that is not a word. -/
def run (op : WordOp) : Except WordOp Int := if op.inRange then .ok op.exact else .error op

theorem run_eq_ok {op : WordOp} {n : Int} : op.run = .ok n ↔ op.inRange = true ∧ n = op.exact := by
  rw [run]
  split
  next h => simp [h, eq_comm]
  next h => simp [h]

end WordOp

end LayerCheck
