import Mathlib
import LayerCheck.Proofs.Name.Map
import LayerCheck.Proofs.Schedule.Reachability
import LayerCheck.Schedule.Run

/-! The order of a run, told without counts. A layer may run when all that it waits for has succeeded, and the
next to run is the first by name of the waiting layers that may. What became of each layer is read off at the end
from the layers that succeeded, those that failed and the graph. -/
namespace LayerCheck.Schedule

/-- How far a run has come. -/
structure Progress extends Tally where
  succeeded : List String

def Progress.start (table : FactTable) : Progress := ⟨.start table, []⟩

/-- A layer may run when all that it waits for has succeeded. -/
def ready (g : LayerGraph) (succeeded : List String) (n : String) : Bool :=
  (g.dependencies n).all succeeded.contains

/-- Runs one layer. -/
def step (strict : Bool) (tree : Tree) (n : String) (layer : Layer) (p : Progress) : Except Abort Progress :=
  (turn strict tree n layer p.toTally).map fun (passed, t) =>
    ⟨t, if passed then p.succeeded ++ [n] else p.succeeded⟩

/-- Runs the `waiting` layers, until none of them is ready. -/
def advance (strict : Bool) (tree : Tree) (c : Closure) (waiting : List String) (p : Progress) :
    Except Abort Progress :=
  match _h : waiting.find? (ready c.graph p.succeeded) with
  | none => .ok p
  | some n =>
    match c.handles.get? n with
    | none => .error (.unknownLayer n)
    | some layer =>
      match step strict tree n layer p with
      | .error e => .error e
      | .ok p => advance strict tree c (waiting.erase n) p
termination_by waiting.length
decreasing_by
  have hn : n ∈ waiting := List.mem_of_find?_eq_some _h
  have : 0 < waiting.length := List.length_pos_of_mem hn
  rw [List.length_erase_of_mem hn]
  omega

/-- The layers that wait when a run begins. -/
def waitingAtStart (g : LayerGraph) : NameSet := g.layers.filter (!g.cycles.flatten.contains ·)

/-- What became of a layer by the end of a run. -/
def stateOf (onCycle : List String) (p : Progress) (behind : List String) (n : String) : LayerState :=
  if onCycle.contains n then .cycle
  else if p.succeeded.contains n then .success
  else if p.failures.any (·.1 == n) then .failure
  else if behind.contains n then .blocked
  else .unprocessed

/-- The states of the layers when a run has come as far as `p` and no layer is ready. -/
def finalStates (c : Closure) (p : Progress) : NameMap LayerState :=
  c.graph.layers.map fun n => (n, stateOf c.graph.cycles.flatten p
    (c.graph.transitiveDependents (c.graph.cycles.flatten ++ p.failures.map (·.1))) n)

/-- The report of a run that has come as far as `p`. -/
def reportOf (c : Closure) (p : Progress) : Report :=
  ⟨finalStates c p, p.order, p.failures, c.graph.cycles, c.implicit, p.metrics⟩

/-- The check of `n` has failed. -/
def Progress.Failed (p : Progress) (n : String) : Prop := ∃ fault, (n, fault) ∈ p.failures

/-- The layer `n` comes after one that has failed or lies on a cycle. -/
def Progress.Behind (p : Progress) (c : Closure) (n : String) : Prop :=
  ∃ m, c.graph.Before m n ∧ (p.Failed m ∨ c.graph.OnCycle m)

variable {c : Closure} {p : Progress} {n : String}

theorem mem_failed : n ∈ p.failures.map (·.1) ↔ p.Failed n := by
  simp [Progress.Failed]

theorem mem_stopped :
    n ∈ c.graph.cycles.flatten ++ p.failures.map (·.1) ↔ p.Failed n ∨ c.graph.OnCycle n := by
  rw [List.mem_append, mem_failed, LayerGraph.mem_flatten_cycles, or_comm]

theorem mem_behind :
    n ∈ c.graph.transitiveDependents (c.graph.cycles.flatten ++ p.failures.map (·.1)) ↔
      p.Behind c n ∧ ¬ (p.Failed n ∨ c.graph.OnCycle n) := by
  simp only [LayerGraph.mem_transitiveDependents, mem_stopped, Progress.Behind, and_comm]

open Classical in
/-- The final states, by what they depend on. -/
theorem get?_finalStates : (finalStates c p).get? n =
    if n ∉ c.graph.nodes then none
    else if c.graph.OnCycle n then some .cycle
    else if n ∈ p.succeeded then some .success
    else if p.Failed n then some .failure
    else if p.Behind c n then some .blocked
    else some .unprocessed := by
  have hf : p.failures.any (·.1 == n) = true ↔ p.Failed n := by simp [Progress.Failed]
  rw [finalStates, NameMap.get?_map_pair]
  simp only [stateOf, List.contains_iff_mem, hf, LayerGraph.mem_layers, LayerGraph.mem_flatten_cycles,
    mem_behind]
  grind

end LayerCheck.Schedule
