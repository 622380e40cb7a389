import LayerCheck.Number.Range
import LayerCheck.Term.Basic

/-! Values of terms. Arithmetic is exact; where words are asked for, a result outside the range of a
signed 64-bit word is an error. `&&` and `||` look at their right operand only when they have to. -/
namespace LayerCheck

inductive Value where
  | int (value : Int)
  | bool (value : Bool)
deriving DecidableEq, Repr

/-- Values of variables; of two entries for one name the last counts. -/
abbrev Env := List (String × Value)

def Env.get? : Env → String → Option Value
  | [], _ => none
  | (y, v) :: rest, x =>
    match Env.get? rest x with
    | some w => some w
    | none => if y = x then some v else none

/-- Which integers a computation may produce. -/
inductive Width where
  | word
  | unbounded
deriving DecidableEq, Repr

def Width.admits : Width → Int → Bool
  | word, n => fits64 n
  | unbounded, _ => true

inductive EvalError where
  | overflow (t : Term)
  | notBoolean (t : Term)
  | notInteger (t : Term)
  | unbound (name : String)
  | mixedOperands (t : Term)
deriving DecidableEq, Repr

def EvalError.message : EvalError → String
  | overflow t => s!"'{t.render}' overflows a 64-bit integer"
  | notBoolean t => s!"'{t.render}' is not a boolean"
  | notInteger t => s!"'{t.render}' is not an integer"
  | unbound name => s!"unbound variable '{name}'"
  | mixedOperands t => s!"operands of '{t.render}' have different types"

namespace Value

/-- The truth value of `t`, which was computed as `v`. -/
def asBool (t : Term) : Value → Except EvalError Bool
  | bool b => .ok b
  | int _ => .error (.notBoolean t)

/-- The number of `t`, which was computed as `v`. -/
def asInt (t : Term) : Value → Except EvalError Int
  | int n => .ok n
  | bool _ => .error (.notInteger t)

/-- Whether two values of one type are equal. -/
def sameAs? : Value → Value → Option Bool
  | int a, int b => some (a == b)
  | bool a, bool b => some (a == b)
  | _, _ => none

end Value

namespace Term

/-- A number that `t` was computed as, if it may be produced. -/
def produced (w : Width) (t : Term) (n : Int) : Except EvalError Value :=
  if w.admits n then .ok (.int n) else .error (.overflow t)

/-- Arithmetic and order on two integers. -/
def arith (w : Width) (t : Term) (op : BinaryOp) (a b : Int) : Except EvalError Value :=
  match op with
  | .add => produced w t (a + b)
  | .sub => produced w t (a - b)
  | .mul => produced w t (a * b)
  | .lt => .ok (.bool (a < b))
  | .le => .ok (.bool (a ≤ b))
  | .gt => .ok (.bool (b < a))
  | _ => .ok (.bool (b ≤ a))

def eval (w : Width) (env : Env) : Term → Except EvalError Value
  | int value => .ok (.int value)
  | bool value => .ok (.bool value)
  | var name =>
    match env.get? name with
    | some v => .ok v
    | none => .error (.unbound name)
  | unary .not t => do
    let b ← (← eval w env t).asBool t
    return .bool !b
  | unary .neg t => do
    let n ← (← eval w env t).asInt t
    produced w (unary .neg t) (-n)
  | binary .and l r => do
    if ← (← eval w env l).asBool l then return .bool (← (← eval w env r).asBool r) else return .bool false
  | binary .or l r => do
    if ← (← eval w env l).asBool l then return .bool true else return .bool (← (← eval w env r).asBool r)
  | binary .eq l r => do
    match (← eval w env l).sameAs? (← eval w env r) with
    | some same => return .bool same
    | none => .error (.mixedOperands (binary .eq l r))
  | binary .ne l r => do
    match (← eval w env l).sameAs? (← eval w env r) with
    | some same => return .bool !same
    | none => .error (.mixedOperands (binary .ne l r))
  | binary op l r => do
    let a ← (← eval w env l).asInt l
    let b ← (← eval w env r).asInt r
    arith w (binary op l r) op a b

/-- The truth value of a predicate. -/
def evalBool (w : Width) (env : Env) (t : Term) : Except EvalError Bool := do (← eval w env t).asBool t

end Term

end LayerCheck
