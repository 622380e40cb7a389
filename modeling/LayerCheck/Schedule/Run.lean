import LayerCheck.Schedule.Closure
import LayerCheck.Schedule.Report

/-! Running layers in order. Each layer has a count of the layers that it still waits for, and one layer runs at
a time, the first by name of those at zero. The facts of a failed layer are taken back and everything after it
stays blocked. Layers on a cycle never run. A strict run ends at the first cycle or failure instead. -/
namespace LayerCheck

namespace Schedule

/-! ### The layers that are left -/

/-- How far each layer of a run is. -/
structure Agenda where
  states : NameMap LayerState
  /-- How many layers each one still waits for. -/
  waitingOn : NameMap Nat
  /-- The layers that may run next. -/
  ready : NameSet
  states_sorted : states.Sorted
  ready_sorted : ready.Sorted
  unprocessed : ∀ n ∈ ready, states.get? n = some .unprocessed

namespace Agenda

variable {a : Agenda} {n : String} {rest : NameSet}

/-- The states before any layer has run. -/
def statesAtStart (g : LayerGraph) (onCycle : List String) : NameMap LayerState :=
  onCycle.foldl (fun states n => states.modify n fun _ => .cycle) (g.layers.map fun n => (n, .unprocessed))

theorem sorted_statesAtStart (g : LayerGraph) (onCycle : List String) : (statesAtStart g onCycle).Sorted :=
  (NameMap.sorted_map_pair (NameSet.sorted_ofList g.nodes) _).foldl_modify _ onCycle

def countsAtStart (g : LayerGraph) : NameMap Nat := g.layers.map fun n => (n, (g.dependencies n).length)

theorem sorted_countsAtStart (g : LayerGraph) : (countsAtStart g).Sorted :=
  NameMap.sorted_map_pair (NameSet.sorted_ofList g.nodes) _

/-- The unprocessed layers that wait for nothing. -/
def idle (states : NameMap LayerState) (counts : NameMap Nat) : NameSet :=
  NameMap.keys (counts.filter fun p => p.2 == 0 && states.get? p.1 == some .unprocessed)

theorem sorted_idle (states : NameMap LayerState) {counts : NameMap Nat} (hs : counts.Sorted) :
    (idle states counts).Sorted :=
  List.Pairwise.map _ (fun _ _ hlt => hlt) (hs.filter _)

theorem unprocessed_idle (states : NameMap LayerState) (counts : NameMap Nat) :
    ∀ n ∈ idle states counts, states.get? n = some .unprocessed := by
  intro n hn
  obtain ⟨p, hp, rfl⟩ := List.mem_map.1 hn
  have hp := (List.mem_filter.1 hp).2
  simp only [Bool.and_eq_true, beq_iff_eq] at hp
  exact hp.2

def start (g : LayerGraph) (onCycle : List String) : Agenda where
  states := statesAtStart g onCycle
  waitingOn := countsAtStart g
  ready := idle (statesAtStart g onCycle) (countsAtStart g)
  states_sorted := sorted_statesAtStart g onCycle
  ready_sorted := sorted_idle _ (sorted_countsAtStart g)
  unprocessed := unprocessed_idle _ _

theorem unprocessed_insert {states : NameMap LayerState} {ready : NameSet} (s : LayerState)
    (h : ∀ m ∈ ready, states.get? m = some .unprocessed) (hn : n ∉ ready) :
    ∀ m ∈ ready, (states.insert n s).get? m = some .unprocessed := by
  intro m hm
  have hne : m ≠ n := fun heq => hn (heq ▸ hm)
  rw [NameMap.get?_insert, if_neg hne, h m hm]

theorem notMem_rest (h : a.ready = n :: rest) : n ∉ rest := by
  have hs := a.ready_sorted
  rw [h] at hs
  exact fun hn => String.lt_irrefl n ((List.pairwise_cons.1 hs).1 n hn)

theorem sorted_rest (h : a.ready = n :: rest) : rest.Sorted := by
  have hs := a.ready_sorted
  rw [h] at hs
  exact (List.pairwise_cons.1 hs).2

theorem unprocessed_rest (h : a.ready = n :: rest) : ∀ m ∈ rest, a.states.get? m = some .unprocessed :=
  fun m hm => a.unprocessed m (h ▸ List.mem_cons_of_mem n hm)

/-- Takes the first of the ready layers, whose check now begins. -/
def take (a : Agenda) (h : a.ready = n :: rest) : Agenda where
  states := a.states.insert n .verifying
  waitingOn := a.waitingOn
  ready := rest
  states_sorted := a.states_sorted.insert n .verifying
  ready_sorted := sorted_rest h
  unprocessed := unprocessed_insert .verifying (unprocessed_rest h) (notMem_rest h)

/-- Enters how the check of a layer ended. -/
def enter (a : Agenda) (n : String) (s : LayerState) (hn : n ∉ a.ready) : Agenda where
  states := a.states.insert n s
  waitingOn := a.waitingOn
  ready := a.ready
  states_sorted := a.states_sorted.insert n s
  ready_sorted := a.ready_sorted
  unprocessed := unprocessed_insert s a.unprocessed hn

theorem unprocessed_ready (h : a.states.get? n = some .unprocessed) :
    ∀ m ∈ NameSet.insert n a.ready, a.states.get? m = some .unprocessed := by
  intro m hm
  rcases NameSet.mem_insert.1 hm with rfl | hm
  · exact h
  · exact a.unprocessed m hm

/-- One layer less to wait for. At zero, a layer that is unprocessed becomes ready. -/
def release (a : Agenda) (n : String) : Agenda :=
  let waitingOn := a.waitingOn.modify n (· - 1)
  if h : waitingOn.get? n = some 0 ∧ a.states.get? n = some .unprocessed then
    ⟨a.states, waitingOn, NameSet.insert n a.ready, a.states_sorted, a.ready_sorted.insert n, unprocessed_ready h.2⟩
  else { a with waitingOn }

/-- The check of the first ready layer passes, and the layers after it are released. -/
def pass (a : Agenda) (g : LayerGraph) (h : a.ready = n :: rest) : Agenda :=
  (g.dependents n).foldl release ((a.take h).enter n .success (notMem_rest h))

/-- The check of the first ready layer fails. -/
def fail (a : Agenda) (h : a.ready = n :: rest) : Agenda := (a.take h).enter n .failure (notMem_rest h)

/-- The layers that hold up those after them. -/
def stopped (a : Agenda) : NameSet := NameMap.keys (a.states.filter fun p => p.2 == .failure || p.2 == .cycle)

/-- The states with the unprocessed layers blocked that come after one that failed or lies on a cycle. -/
def blocked (a : Agenda) (g : LayerGraph) : NameMap LayerState :=
  (g.transitiveDependents a.stopped).foldl
    (fun states n => states.modify n fun s => if s = .unprocessed then .blocked else s) a.states

/-- The number of layers that have not begun. -/
def left (a : Agenda) : Nat := a.states.countP fun p => p.2 == .unprocessed

theorem states_release (a : Agenda) (n : String) : (a.release n).states = a.states := by
  rw [release]
  split <;> rfl

theorem states_foldl_release (a : Agenda) (ns : List String) : (ns.foldl release a).states = a.states := by
  induction ns generalizing a with
  | nil => rfl
  | cons n ns ih => rw [List.foldl_cons, ih, states_release]

theorem states_enter_take (h : a.ready = n :: rest) (s : LayerState) :
    ((a.take h).enter n s (notMem_rest h)).states = (a.states.insert n .verifying).insert n s := rfl

theorem left_enter_take (h : a.ready = n :: rest) {s : LayerState} (hs : s ≠ .unprocessed) :
    ((a.take h).enter n s (notMem_rest h)).left < a.left := by
  have hn : a.states.get? n = some .unprocessed := a.unprocessed n (h ▸ List.mem_cons_self)
  rw [left, left, states_enter_take, NameMap.insert_insert]
  exact a.states_sorted.countP_insert_lt (r := (· == .unprocessed)) hn rfl (beq_eq_false_iff_ne.2 hs)

theorem left_pass (g : LayerGraph) (h : a.ready = n :: rest) : (a.pass g h).left < a.left := by
  have hstates := states_foldl_release ((a.take h).enter n .success (notMem_rest h)) (g.dependents n)
  rw [left, pass, hstates]
  exact left_enter_take h (by decide)

theorem left_fail (h : a.ready = n :: rest) : (a.fail h).left < a.left := left_enter_take h (by decide)

end Agenda

/-! ### The checks -/

/-- What the checks of a run have come to. -/
structure Tally where
  table : FactTable
  /-- The layers that ran, in order. -/
  order : List String
  failures : List (String × Fault)
  metrics : Metrics

def Tally.start (table : FactTable) : Tally := ⟨table, [], [], .empty⟩

def measured (m : Metrics) (n : String) (v : Verdict) : Metrics :=
  v.counters.foldl (fun m (counter, k) => m.count s!"{n}.{counter}" k) (m.time n v.elapsed)

/-- Runs one layer, and tells whether its check passed. -/
def turn (strict : Bool) (tree : Tree) (n : String) (layer : Layer) (t : Tally) : Except Abort (Bool × Tally) :=
  let v := layer.check tree t.table
  let t' := { t with order := t.order ++ [n], metrics := measured t.metrics n v }
  match v.outcome with
  | .ok () => .ok (true, { t' with table := v.table })
  | .error fault =>
    if strict then .error (.layerFailure n fault)
    else .ok (false, { t' with table := v.table.rollback t.table.size, failures := t.failures ++ [(n, fault)] })

/-- Runs the ready layers, until there are none. -/
def loop (strict : Bool) (tree : Tree) (c : Closure) (a : Agenda) (t : Tally) : Except Abort (Agenda × Tally) :=
  match h : a.ready with
  | [] => .ok (a, t)
  | n :: _ =>
    match c.handles.get? n with
    | none => .error (.unknownLayer n)
    | some layer =>
      match turn strict tree n layer t with
      | .error e => .error e
      | .ok (true, t) => loop strict tree c (a.pass c.graph h) t
      | .ok (false, t) => loop strict tree c (a.fail h) t
termination_by a.left
decreasing_by
  · exact Agenda.left_pass c.graph h
  · exact Agenda.left_fail h

/-- Runs every layer of a closure over a program. -/
def run (strict : Bool) (tree : Tree) (c : Closure) (table : FactTable) :
    Except Abort (FactTable × Report) :=
  let cycles := c.graph.cycles
  match if strict then cycles.head? else none with
  | some cycle => .error (.cycle cycle)
  | none =>
    (loop strict tree c (.start c.graph cycles.flatten) (.start table)).map fun (a, t) =>
      (t.table, ⟨a.blocked c.graph, t.order, t.failures, cycles, c.implicit, t.metrics⟩)

end Schedule

end LayerCheck
