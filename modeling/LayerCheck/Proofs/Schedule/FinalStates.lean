import Mathlib
import LayerCheck.Proofs.Schedule.Counters
import LayerCheck.Proofs.Schedule.History
import LayerCheck.Proofs.Text.Bytes

/-! How the layers end in a run that goes on past cycles and failures. Such a run always ends with a report.
A layer on a cycle never runs, one behind a failure or a cycle is blocked, and each of the others runs once, after
all that it waits for, as the first by its bytes of those that are ready. -/
namespace LayerCheck.Schedule

/-- What a report says of the layers, in terms of the graph and of how the checks ended. -/
structure Settled (tree : Tree) (c : Closure) (table table' : FactTable) (r : Report) : Prop where
  states : ∀ n, (r.states.get? n).isSome = true ↔ n ∈ c.graph.nodes
  cycle : ∀ n, r.states.get? n = some .cycle ↔ c.graph.OnCycle n
  success : ∀ n, r.states.get? n = some .success ↔
    ¬ c.graph.OnCycle n ∧ (∀ d ∈ c.graph.dependencies n, r.states.get? d = some .success) ∧
      Ended tree c table r.order n (.ok ())
  failure : ∀ n, r.states.get? n = some .failure ↔
    ¬ c.graph.OnCycle n ∧ (∀ d ∈ c.graph.dependencies n, r.states.get? d = some .success) ∧
      ∃ fault, Ended tree c table r.order n (.error fault)
  blocked : ∀ n, r.states.get? n = some .blocked ↔
    ¬ c.graph.OnCycle n ∧ ∃ m, c.graph.Before m n ∧
      (r.states.get? m = some .failure ∨ r.states.get? m = some .cycle)
  decided : ∀ n, r.states.get? n ≠ some .unprocessed ∧ r.states.get? n ≠ some .verifying
  order_nodup : r.order.Nodup
  mem_order : ∀ n, n ∈ r.order ↔ r.states.get? n = some .success ∨ r.states.get? n = some .failure
  /-- Wherever `n` ran, after the layers `past`, these hold all that it waits for. -/
  dependencies_first : ∀ past n, past ++ [n] <+: r.order → ∀ d ∈ c.graph.dependencies n, d ∈ past
  /-- It was then the least of the layers that were ready. -/
  least : ∀ past n, past ++ [n] <+: r.order →
    Ready tree c table past n ∧ ∀ m, Ready tree c table past m → m ≠ n → bytes n < bytes m
  failures : ∀ n fault, (n, fault) ∈ r.failures ↔ Ended tree c table r.order n (.error fault)
  facts : table' = replay tree c table r.order

variable {tree : Tree} {c : Closure} {table : FactTable} {p : Progress} {waiting : List String} {n : String}

theorem run_tolerant (h : advance false tree c (waitingAtStart c.graph) (.start table) = .ok p) :
    run false tree c table = .ok (p.table, reportOf c p) := by
  rw [run_eq_map_advance (.inl rfl), h]
  rfl

theorem run_eq_ok {table' : FactTable} {r : Report} (h : run false tree c table = .ok (table', r)) :
    ∃ p, advance false tree c (waitingAtStart c.graph) (.start table) = .ok p ∧
      p.table = table' ∧ r = reportOf c p := by
  cases hp : advance false tree c (waitingAtStart c.graph) (.start table) with
  | error e =>
    rw [run_eq_map_advance (.inl rfl), hp] at h
    cases h
  | ok p =>
    rw [run_tolerant hp] at h
    cases h
    exact ⟨p, rfl, rfl, rfl⟩

namespace History

theorem get?_eq_cycle : (finalStates c p).get? n = some .cycle ↔ c.graph.OnCycle n := by
  have hn : c.graph.OnCycle n → n ∈ c.graph.nodes := LayerGraph.Before.mem_left
  rw [get?_finalStates]
  grind

theorem free_of_mem_order (h : History tree c table p waiting) (hn : n ∈ p.order) :
    n ∈ c.graph.nodes ∧ ¬ c.graph.OnCycle n := by
  obtain ⟨past, -, hr⟩ := h.exists_past hn
  exact ⟨hr.1, h.free n hn⟩

theorem get?_eq_success (h : History tree c table p waiting) :
    (finalStates c p).get? n = some .success ↔ n ∈ p.succeeded := by
  have hn : n ∈ p.succeeded → n ∈ c.graph.nodes ∧ ¬ c.graph.OnCycle n := fun hs =>
    h.free_of_mem_order ((h.succeeded n).1 hs).mem
  rw [get?_finalStates]
  grind

theorem get?_eq_failure (covered : c.Covered)
    (h : History tree c table p waiting) : (finalStates c p).get? n = some .failure ↔ p.Failed n := by
  have hn : p.Failed n → n ∈ c.graph.nodes ∧ ¬ c.graph.OnCycle n := fun hf =>
    h.free_of_mem_order ((h.mem_order covered).2 (.inr hf))
  have hs : n ∈ p.succeeded → ¬ p.Failed n := h.not_failed_of_succeeded
  rw [get?_finalStates]
  grind

theorem get?_eq_blocked (covered : c.Covered)
    (h : History tree c table p waiting) :
    (finalStates c p).get? n = some .blocked ↔ ¬ c.graph.OnCycle n ∧ p.Behind c n := by
  have hn : p.Behind c n → n ∈ c.graph.nodes ∧ n ∉ p.succeeded ∧ ¬ p.Failed n := fun hb => by
    have ho : ¬ (n ∈ p.succeeded ∨ p.Failed n) := fun ho => h.not_behind ((h.mem_order covered).2 ho) hb
    obtain ⟨m, hm, -⟩ := hb
    exact ⟨hm.mem_right, not_or.1 ho⟩
  rw [get?_finalStates]
  grind

theorem dependencies_of_mem_order (h : History tree c table p waiting) (hn : n ∈ p.order) :
    ∀ d ∈ c.graph.dependencies n, (finalStates c p).get? d = some .success := by
  intro d hd
  exact h.get?_eq_success.2 (h.succeeded_of_before hn (.single (LayerGraph.mem_dependencies.1 hd)))

theorem settled (covered : c.Covered)
    (h : History tree c table p waiting) (stuck : ∀ n, ¬ Ready tree c table p.order n) :
    Settled tree c table p.table
      ⟨finalStates c p, p.order, p.failures, c.graph.cycles, c.implicit, p.metrics⟩ where
  states n := by
    rw [get?_finalStates]
    grind
  cycle n := get?_eq_cycle
  success n := by
    rw [h.get?_eq_success, h.succeeded]
    constructor
    · intro he
      exact ⟨h.free n he.mem, h.dependencies_of_mem_order he.mem, he⟩
    · exact fun he => he.2.2
  failure n := by
    rw [h.get?_eq_failure covered, h.failed_iff]
    constructor
    · rintro ⟨fault, he⟩
      exact ⟨h.free n he.mem, h.dependencies_of_mem_order he.mem, fault, he⟩
    · exact fun he => he.2.2
  blocked n := by
    simp only [h.get?_eq_blocked covered, h.get?_eq_failure covered, get?_eq_cycle, Progress.Behind]
  decided n := by
    have hb : n ∈ c.graph.nodes → ¬ c.graph.OnCycle n → n ∉ p.succeeded → ¬ p.Failed n → p.Behind c n := by
      intro hn hc hs hf
      have ho : n ∉ p.order := mt (h.mem_order covered).1 (not_or.2 ⟨hs, hf⟩)
      exact h.behind_of_stuck covered stuck hn hc ho
    rw [get?_finalStates]
    grind
  order_nodup := h.nodup
  mem_order n := by
    rw [h.get?_eq_success, h.get?_eq_failure covered]
    exact h.mem_order covered
  dependencies_first past n hp d hd := ((h.least past n hp).1.2.2 d hd).mem
  least past n hp := by
    obtain ⟨hr, hl⟩ := h.least past n hp
    exact ⟨hr, fun m hm hne => bytes_lt.2 (hl m hm hne)⟩
  failures := h.failures
  facts := h.facts

end History

/-- A run that goes on past cycles and failures ends with a report, and each layer's state in it is the one
that the graph and the checks call for. -/
theorem exists_settled_of_tolerant (tree : Tree) (c : Closure) (table : FactTable)
    (covered : c.Covered) :
    ∃ table' r, run false tree c table = .ok (table', r) ∧ Settled tree c table table' r := by
  obtain ⟨p, rest, hp, h, stuck⟩ := History.start.advance covered
  exact ⟨_, _, run_tolerant hp, h.settled covered stuck⟩

def constantLayer (name : String) (outcome : Except Fault Unit) : Layer where
  name := name
  check _ table := { table, outcome }

/-- A chain whose second layer fails, and a layer that waits for itself with another one behind it. -/
def brokenChain : Closure where
  graph := (((LayerGraph.empty.addEdge "base" "shape").addEdge "shape" "usage").addEdge "loop" "loop").addEdge
    "loop" "tail"
  handles := .ofList [("base", constantLayer "base" (.ok ())), ("loop", constantLayer "loop" (.ok ())),
    ("shape", constantLayer "shape" (.error ⟨.malformed "no shape", none, []⟩)),
    ("tail", constantLayer "tail" (.ok ())), ("usage", constantLayer "usage" (.ok ()))]
  implicit := []

theorem run_brokenChain (tree : Tree) :
    (run false tree brokenChain .empty).toOption.map (fun (_, r) => (r.states, r.order)) =
      some ([("base", .success), ("loop", .cycle), ("shape", .failure), ("tail", .blocked),
        ("usage", .blocked)], ["base", "shape"]) := by
  cbv

theorem brokenChain_settled :
    brokenChain.Covered ∧
      ∃ table r, run false (.node .program ⟨1, 1⟩ []) brokenChain .empty = .ok (table, r) ∧
        Settled (.node .program ⟨1, 1⟩ []) brokenChain .empty table r ∧
        r.states = [("base", .success), ("loop", .cycle), ("shape", .failure), ("tail", .blocked),
          ("usage", .blocked)] ∧ r.order = ["base", "shape"] := by
  have covered : brokenChain.Covered := by decide
  obtain ⟨table, r, hr, hs⟩ :=
    exists_settled_of_tolerant (.node .program ⟨1, 1⟩ []) brokenChain .empty covered
  have states := run_brokenChain (.node .program ⟨1, 1⟩ [])
  rw [hr] at states
  obtain ⟨hstates, horder⟩ := Prod.mk.inj (Option.some.inj states)
  exact ⟨covered, table, r, hr, hs, hstates, horder⟩

end LayerCheck.Schedule
