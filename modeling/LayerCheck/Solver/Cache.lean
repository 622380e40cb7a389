import LayerCheck.Solver.Bounded

/-! Solvers with a memory. A solver may keep a state from one query to the next; the cached solver keeps
the answers to the most recently used queries, by their text. Errors are not kept. -/
namespace LayerCheck

/-- A way to answer queries that carries a state along. -/
abbrev Answerer (σ : Type) := Query → σ → Except SolverError Bool × σ

/-- Answers by text, the most recently used first. -/
structure Cache where
  capacity : Nat
  entries : List (String × Bool)
  queries : Nat
  hits : Nat
deriving DecidableEq, Repr

namespace Cache

/-- An empty cache, with room for at least one answer. -/
def empty (capacity : Nat) : Cache := ⟨max 1 capacity, [], 0, 0⟩

/-- Puts an answer in front, dropping what no longer fits. -/
def store (c : Cache) (key : String) (valid : Bool) : Cache :=
  { c with entries := ((key, valid) :: c.entries.filter (·.1 != key)).take c.capacity }

/-- Answers from memory, or else asks and remembers the answer. -/
def ask (answer : Query → Except SolverError Bool) : Answerer Cache := fun q c =>
  let key := q.render
  let c := { c with queries := c.queries + 1 }
  match c.entries.lookup key with
  | some valid => (.ok valid, { c.store key valid with hits := c.hits + 1 })
  | none =>
    match answer q with
    | .ok valid => (.ok valid, c.store key valid)
    | .error e => (.error e, c)

end Cache

end LayerCheck
