import LayerCheck.Name.Map
import LayerCheck.Number.Word

/-! Linear forms over named integer variables, with coefficients that are signed 128-bit words. Sums and
multiples of forms are checked: where a result leaves that range there is none. Divisions and magnitudes
are not, and break off there; the names of the functions that do so end with an exclamation mark. A form
stands for the constraint that its value is at most zero. -/
namespace LayerCheck

/-- An integer that is a 128-bit word. -/
def word128 (n : Int) : Option Int := if fits128 n then some n else none

/-- Euclid's algorithm, with remainders that have the sign of what is divided. -/
def euclid! (a b : Int) : Except WordOp Int :=
  if _h : b = 0 then .ok a
  else
    match _hr : (WordOp.remainder a b).run with
    | .error op => .error op
    | .ok r => euclid! b r
termination_by b.natAbs
decreasing_by
  rw [(WordOp.run_eq_ok.1 _hr).2, WordOp.exact, Int.natAbs_tmod]
  exact Nat.mod_lt _ (Int.natAbs_pos.2 _h)

/-- The least integer that is at least a quotient with a positive divisor. -/
def ceilDiv! (n d : Int) : Except WordOp Int := do
  let quotient ← (WordOp.wholes n d).run
  if (← (WordOp.residue n d).run) = 0 then return quotient else (WordOp.successor quotient).run

/-- A sum of variables with nonzero coefficients, in order of their names, and a constant. -/
structure Linear where
  coefficients : NameMap Int
  constant : Int
deriving DecidableEq, Repr

namespace Linear

def const (n : Int) : Linear := ⟨[], n⟩

def ofName (name : String) : Linear := ⟨[(name, 1)], 0⟩

def isConst (e : Linear) : Bool := e.coefficients.isEmpty

def coefficient (e : Linear) (x : String) : Int := (e.coefficients.get? x).getD 0

/-- Adds multiples of some coefficients. -/
def addCoefficients (factor : Int) : NameMap Int → NameMap Int → Option (NameMap Int)
  | sum, [] => some sum
  | sum, (x, c) :: rest => do
    let product ← word128 (c * factor)
    let total ← word128 ((sum.get? x).getD 0 + product)
    addCoefficients factor (NameMap.insert x total sum) rest

/-- The form `e + factor * e'`. -/
def addScaled (e e' : Linear) (factor : Int) : Option Linear := do
  let coefficients ← addCoefficients factor e.coefficients e'.coefficients
  let product ← word128 (e'.constant * factor)
  let constant ← word128 (e.constant + product)
  return ⟨coefficients.filter (·.2 != 0), constant⟩

def scale (e : Linear) (factor : Int) : Option Linear := (const 0).addScaled e factor

def offset (e : Linear) (delta : Int) : Option Linear := do
  return { e with constant := ← word128 (e.constant + delta) }

/-- The common divisor of some coefficients and an integer. -/
def divisorFrom! : Int → NameMap Int → Except WordOp Int
  | d, [] => .ok d
  | d, (_, c) :: rest => do
    let size ← (WordOp.magnitude c).run
    divisorFrom! (← euclid! d size) rest

/-- Divides coefficients by a divisor of them all. -/
def divide! (d : Int) : NameMap Int → Except WordOp (NameMap Int)
  | [] => .ok []
  | (x, c) :: rest => do
    let quotient ← (WordOp.quotient c d).run
    return (x, quotient) :: (← divide! d rest)

/-- Divides a constraint by the common divisor of its coefficients and rounds the constant up, which over
the integers loses no solution. -/
def tighten! (e : Linear) : Except WordOp Linear := do
  let d ← divisorFrom! 0 e.coefficients
  if 1 < d then
    let coefficients ← divide! d e.coefficients
    return ⟨coefficients, ← ceilDiv! e.constant d⟩
  else return e

/-- The value of a form without one of its variables, where a variable without a value counts as zero. -/
def valueWithout (skip : String) (values : NameMap Int) : NameMap Int → Int → Option Int
  | [], total => some total
  | (x, c) :: rest, total =>
    if x = skip then valueWithout skip values rest total
    else do
      let product ← word128 (c * (values.get? x).getD 0)
      valueWithout skip values rest (← word128 (total + product))

/-! ### Sets of constraints -/

def compareCoefficients : NameMap Int → NameMap Int → Ordering
  | [], [] => .eq
  | [], _ :: _ => .lt
  | _ :: _, [] => .gt
  | (x, c) :: e, (y, d) :: e' => (compare x y).then ((compare c d).then (compareCoefficients e e'))

def compareForms (e e' : Linear) : Ordering :=
  (compareCoefficients e.coefficients e'.coefficients).then (compare e.constant e'.constant)

/-- Drops each form that equals the one before it. -/
def dropRepeats : List Linear → List Linear
  | e :: e' :: rest => if e = e' then dropRepeats (e' :: rest) else e :: dropRepeats (e' :: rest)
  | es => es

def upTo (e e' : Linear) : Bool := (compareForms e e').isLE

/-- A list of forms as a set: in order, without repetition. -/
def toSet (es : List Linear) : List Linear := dropRepeats (es.mergeSort upTo)

/-- Adds forms to a set. -/
def addToSet (set es : List Linear) : List Linear := dropRepeats (set.merge (es.mergeSort upTo) upTo)

theorem mem_dropRepeats {e : Linear} {es : List Linear} : e ∈ dropRepeats es ↔ e ∈ es := by
  fun_induction dropRepeats es with
  | case1 e' rest ih => simp [ih]
  | case2 e' e'' rest h ih => simp [ih]
  | case3 es h => rfl

theorem mem_toSet {e : Linear} {es : List Linear} : e ∈ toSet es ↔ e ∈ es := by
  simp [toSet, mem_dropRepeats]

theorem mem_addToSet {e : Linear} {set es : List Linear} : e ∈ addToSet set es ↔ e ∈ set ∨ e ∈ es := by
  simp [addToSet, mem_dropRepeats, List.mem_merge]

end Linear

end LayerCheck
