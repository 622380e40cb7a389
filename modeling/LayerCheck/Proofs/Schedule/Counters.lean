import Mathlib
import LayerCheck.Proofs.Name.Map
import LayerCheck.Proofs.Schedule.Readiness

/-! The counts of a run stand for what has happened in it. At each point the count of a layer is the number of its
dependencies that have not succeeded, and the ready layers are the unprocessed ones at zero. So the loop over the
counts takes the layers in the order that readiness alone tells, and ends with the same report. -/
namespace LayerCheck.Schedule

namespace Agenda

variable {a : Agenda} {g : LayerGraph} {p : Progress} {waiting : List String} {n m : String} {rest : NameSet}

/-! ### Releasing layers -/

theorem get?_waitingOn_release :
    (a.release n).waitingOn.get? m =
      if m = n then (a.waitingOn.get? m).map (· - 1) else a.waitingOn.get? m := by
  rw [← NameMap.get?_modify, release]
  split <;> rfl

theorem mem_ready_release :
    m ∈ (a.release n).ready ↔
      m ∈ a.ready ∨ m = n ∧ (a.waitingOn.get? m).map (· - 1) = some 0 ∧ a.states.get? m = some .unprocessed := by
  have hcount : (a.waitingOn.modify n (· - 1)).get? n = (a.waitingOn.get? n).map (· - 1) := by
    rw [NameMap.get?_modify, if_pos rfl]
  rw [release]
  split
  next h =>
    rw [hcount] at h
    simp only [NameSet.mem_insert]
    constructor
    · rintro (rfl | hm)
      · exact .inr ⟨rfl, h⟩
      · exact .inl hm
    · rintro (hm | ⟨rfl, -⟩)
      · exact .inr hm
      · exact .inl rfl
  next h =>
    rw [hcount] at h
    constructor
    · exact .inl
    · rintro (hm | ⟨rfl, hm⟩)
      · exact hm
      · exact absurd hm h

/-- Each of some layers has one layer less to wait for; those that come to zero and are unprocessed become ready. -/
theorem foldl_release {ns : List String} (hns : ns.Nodup) (a : Agenda) :
    (∀ m, (ns.foldl release a).waitingOn.get? m =
      if m ∈ ns then (a.waitingOn.get? m).map (· - 1) else a.waitingOn.get? m) ∧
    ∀ m, m ∈ (ns.foldl release a).ready ↔
      m ∈ a.ready ∨ m ∈ ns ∧ (a.waitingOn.get? m).map (· - 1) = some 0 ∧ a.states.get? m = some .unprocessed := by
  induction ns generalizing a with
  | nil => simp
  | cons n ns ih =>
    obtain ⟨hn, hns⟩ := List.nodup_cons.1 hns
    obtain ⟨hcounts, hready⟩ := ih hns (a.release n)
    refine ⟨fun m => ?_, fun m => ?_⟩
    · rw [List.foldl_cons, hcounts, get?_waitingOn_release]
      by_cases hm : m = n
      · subst hm
        simp [hn]
      · simp [hm]
    · rw [List.foldl_cons, hready, mem_ready_release, get?_waitingOn_release, states_release]
      by_cases hm : m = n
      · subst hm
        simp [hn]
      · simp [hm]

theorem get?_states_enter (h : a.ready = n :: rest) (s : LayerState) (m : String) :
    ((a.take h).enter n s (notMem_rest h)).states.get? m = if m = n then some s else a.states.get? m := by
  rw [states_enter_take, NameMap.insert_insert, NameMap.get?_insert]

theorem get?_states_pass (h : a.ready = n :: rest) (m : String) :
    (a.pass g h).states.get? m = if m = n then some .success else a.states.get? m := by
  rw [pass, states_foldl_release, get?_states_enter]

theorem get?_waitingOn_pass (h : a.ready = n :: rest) (m : String) :
    (a.pass g h).waitingOn.get? m =
      if n ∈ g.dependencies m then (a.waitingOn.get? m).map (· - 1) else a.waitingOn.get? m := by
  simp only [pass, (foldl_release (g.nodup_dependents n) _).1, LayerGraph.mem_dependents_iff]
  rfl

theorem mem_ready_pass (h : a.ready = n :: rest) :
    m ∈ (a.pass g h).ready ↔
      m ∈ rest ∨ n ∈ g.dependencies m ∧ (a.waitingOn.get? m).map (· - 1) = some 0 ∧
        m ≠ n ∧ a.states.get? m = some .unprocessed := by
  have hstate : ((a.take h).enter n .success (notMem_rest h)).states.get? m = some .unprocessed ↔
      m ≠ n ∧ a.states.get? m = some .unprocessed := by
    rw [get?_states_enter]
    split <;> simp [*]
  rw [pass, (foldl_release (g.nodup_dependents n) _).2, hstate, LayerGraph.mem_dependents_iff]
  rfl

/-! ### The invariant -/

/-- What the states of the layers say of a run that has come as far as `p`, while the layers `waiting` are left. -/
structure Marks (states : NameMap LayerState) (g : LayerGraph) (p : Progress) (waiting : List String) : Prop where
  node : ∀ n, (states.get? n).isSome = true ↔ n ∈ g.nodes
  cycle : ∀ n, states.get? n = some .cycle ↔ g.OnCycle n
  success : ∀ n, states.get? n = some .success ↔ n ∈ p.succeeded
  failure : ∀ n, states.get? n = some .failure ↔ p.Failed n
  unprocessed : ∀ n, states.get? n = some .unprocessed ↔ n ∈ waiting
  settled : ∀ n, states.get? n ≠ some .verifying ∧ states.get? n ≠ some .blocked

/-- What the states, the counts and the ready layers say of such a run. -/
structure Tracks (a : Agenda) (g : LayerGraph) (p : Progress) (waiting : List String) : Prop where
  marks : Marks a.states g p waiting
  /-- The count of a layer is the number of its dependencies that have not succeeded. -/
  count : ∀ n, a.waitingOn.get? n =
    if n ∈ g.nodes then some ((g.dependencies n).countP (!p.succeeded.contains ·)) else none
  /-- The ready layers are the unprocessed ones at zero. -/
  mem_ready : ∀ n, n ∈ a.ready ↔ a.states.get? n = some .unprocessed ∧ a.waitingOn.get? n = some 0
  sorted : NameSet.Sorted waiting

theorem get?_statesAtStart :
    (statesAtStart g g.cycles.flatten).get? n =
      if n ∈ g.nodes then some (if n ∈ g.cycles.flatten then .cycle else .unprocessed) else none := by
  have hmark := NameMap.get?_foldl_modify (f := fun _ => LayerState.cycle) (fun _ => rfl) g.cycles.flatten
    (g.layers.map fun n => (n, .unprocessed)) n
  rw [statesAtStart, hmark, NameMap.get?_map_pair]
  simp only [LayerGraph.mem_layers]
  split <;> split <;> rfl

theorem marks_start (g : LayerGraph) (table : FactTable) :
    Marks (statesAtStart g g.cycles.flatten) g (.start table) (waitingAtStart g) where
  node n := by
    rw [get?_statesAtStart]
    split <;> simp [*]
  cycle n := by
    have hn : g.OnCycle n → n ∈ g.nodes := LayerGraph.Before.mem_left
    rw [← LayerGraph.mem_flatten_cycles] at hn ⊢
    rw [get?_statesAtStart]
    grind
  success n := by
    rw [get?_statesAtStart]
    grind [Progress.start]
  failure n := by
    rw [get?_statesAtStart]
    grind [Progress.start, Progress.Failed, Tally.start]
  unprocessed n := by
    rw [get?_statesAtStart, waitingAtStart, List.mem_filter, LayerGraph.mem_layers]
    grind
  settled n := by
    rw [get?_statesAtStart]
    grind

theorem tracks_start (g : LayerGraph) (table : FactTable) :
    (start g g.cycles.flatten).Tracks g (.start table) (waitingAtStart g) where
  marks := marks_start g table
  count n := by
    simp [start, countsAtStart, NameMap.get?_map_pair, LayerGraph.mem_layers, Progress.start]
  mem_ready n := by
    simp only [start, idle]
    constructor
    · intro hn
      obtain ⟨⟨m, k⟩, hm, rfl⟩ := List.mem_map.1 hn
      obtain ⟨hm, hk⟩ := List.mem_filter.1 hm
      simp only [Bool.and_eq_true, beq_iff_eq] at hk
      exact ⟨hk.2, hk.1 ▸ (sorted_countsAtStart g).get? hm⟩
    · rintro ⟨hn, hk⟩
      refine List.mem_map.2 ⟨(n, 0), List.mem_filter.2 ⟨NameMap.mem_of_get? hk, ?_⟩, rfl⟩
      simp [hn]
  sorted := (NameSet.sorted_ofList _).filter _

/-- A waiting layer has run, and its state tells how it ended. -/
theorem Marks.enter {states states' : NameMap LayerState} {p' : Progress} {s : LayerState}
    (h : Marks states g p waiting) (hw : waiting.Nodup) (hn : n ∈ waiting) (hs : s = .success ∨ s = .failure)
    (hstates : ∀ m, states'.get? m = if m = n then some s else states.get? m)
    (hsucceeded : ∀ m, m ∈ p'.succeeded ↔ m ∈ p.succeeded ∨ m = n ∧ s = .success)
    (hfailed : ∀ m, p'.Failed m ↔ p.Failed m ∨ m = n ∧ s = .failure) :
    Marks states' g p' (waiting.erase n) := by
  have hbefore := (h.unprocessed n).2 hn
  constructor <;> intro m <;> rw [hstates]
  · have := h.node m
    grind
  · have := h.cycle m
    grind
  · have := h.success m
    rw [hsucceeded]
    grind
  · have := h.failure m
    rw [hfailed]
    grind
  · have := h.unprocessed m
    rw [hw.mem_erase_iff]
    grind
  · have := h.settled m
    grind

/-- One of some different names succeeds, so one less of them has not. -/
theorem countP_concat {ds succeeded : List String} (hds : ds.Nodup) (hn : n ∉ succeeded) :
    ds.countP (!(succeeded ++ [n]).contains ·) =
      if n ∈ ds then ds.countP (!succeeded.contains ·) - 1 else ds.countP (!succeeded.contains ·) := by
  induction ds with
  | nil => rfl
  | cons d ds ih =>
    obtain ⟨hd, hds⟩ := List.nodup_cons.1 hds
    have ih := ih hds
    by_cases hdn : n = d
    · subst hdn
      simp_all
    · have hpos : n ∈ ds → 0 < ds.countP (!succeeded.contains ·) := fun hm =>
        List.countP_pos_iff.2 ⟨n, hm, by simpa using hn⟩
      have hsame : (!(succeeded ++ [n]).contains d) = !succeeded.contains d := by simp [Ne.symm hdn]
      rw [List.countP_cons, List.countP_cons, ih, hsame]
      simp only [List.mem_cons, hdn, false_or]
      split
      next hm =>
        have := hpos hm
        omega
      next => rfl

namespace Tracks

theorem count_eq_zero (h : a.Tracks g p waiting) (hn : n ∈ g.nodes) :
    a.waitingOn.get? n = some 0 ↔ Schedule.ready g p.succeeded n = true := by
  rw [h.count, if_pos hn, Option.some_inj, List.countP_eq_zero, Schedule.ready, List.all_eq_true]
  simp

theorem mem_nodes (h : a.Tracks g p waiting) (hn : n ∈ waiting) : n ∈ g.nodes :=
  (h.marks.node n).1 (by rw [(h.marks.unprocessed n).2 hn]; rfl)

/-- The ready layers are those of the waiting ones whose dependencies have all succeeded. -/
theorem ready_eq (h : a.Tracks g p waiting) : a.ready = waiting.filter (Schedule.ready g p.succeeded) := by
  refine NameSet.Sorted.ext a.ready_sorted (h.sorted.filter _) fun n => ?_
  rw [h.mem_ready, h.marks.unprocessed, List.mem_filter]
  exact and_congr_right fun hn => h.count_eq_zero (h.mem_nodes hn)

theorem find?_eq (h : a.Tracks g p waiting) :
    waiting.find? (Schedule.ready g p.succeeded) = a.ready.head? := by
  rw [h.ready_eq, List.head?_filter]

theorem mem_waiting (h : a.Tracks g p waiting) (hr : a.ready = n :: rest) : n ∈ waiting :=
  (h.marks.unprocessed n).1 ((h.mem_ready n).1 (hr ▸ List.mem_cons_self)).1

theorem notMem_succeeded (h : a.Tracks g p waiting) (hn : n ∈ waiting) : n ∉ p.succeeded := by
  intro hs
  cases ((h.marks.success n).2 hs).symm.trans ((h.marks.unprocessed n).2 hn)

/-- The first ready layer fails: no count changes. -/
theorem fail (h : a.Tracks g p waiting) (hr : a.ready = n :: rest) {p' : Progress}
    (hs : p'.succeeded = p.succeeded) {fault : Fault} (hf : p'.failures = p.failures ++ [(n, fault)]) :
    (a.fail hr).Tracks g p' (waiting.erase n) where
  marks := by
    refine h.marks.enter h.sorted.nodup (h.mem_waiting hr) (.inr rfl) (get?_states_enter hr .failure)
      (fun m => by simp [hs]) fun m => by simp [Progress.Failed, hf, exists_or]
  count m := by
    rw [hs]
    exact h.count m
  mem_ready m := by
    have hm := h.mem_ready m
    rw [hr, List.mem_cons] at hm
    change m ∈ rest ↔ ((a.take hr).enter n .failure (notMem_rest hr)).states.get? m = _ ∧ a.waitingOn.get? m = _
    rw [get?_states_enter]
    have hn := notMem_rest hr
    grind
  sorted := h.sorted.sublist List.erase_sublist

/-- The first ready layer passes: one layer less to wait for, for each layer after it. -/
theorem pass (h : a.Tracks g p waiting) (hr : a.ready = n :: rest) {p' : Progress}
    (hs : p'.succeeded = p.succeeded ++ [n]) (hf : p'.failures = p.failures) :
    (a.pass g hr).Tracks g p' (waiting.erase n) where
  marks := by
    refine h.marks.enter h.sorted.nodup (h.mem_waiting hr) (.inl rfl) (get?_states_pass hr)
      (fun m => by simp [hs]) fun m => by simp [Progress.Failed, hf]
  count m := by
    have hn : n ∉ p.succeeded := h.notMem_succeeded (h.mem_waiting hr)
    rw [get?_waitingOn_pass, h.count, hs, countP_concat (g.nodup_dependencies m) hn]
    split <;> split <;> rfl
  mem_ready m := by
    have hm := h.mem_ready m
    have hn := notMem_rest hr
    rw [hr, List.mem_cons] at hm
    rw [mem_ready_pass, get?_states_pass, get?_waitingOn_pass]
    constructor
    · -- a layer that was ready before stays at zero
      rintro (hrest | ⟨hd, hzero, hne, hstate⟩)
      · obtain ⟨hstate, hzero⟩ := hm.1 (.inr hrest)
        have hne : m ≠ n := fun heq => hn (heq ▸ hrest)
        simp [hne, hstate, hzero]
      · simp [hne, hstate, hd, hzero]
    · rintro ⟨hstate, hzero⟩
      have hne : m ≠ n := by
        rintro rfl
        simp at hstate
      rw [if_neg hne] at hstate
      by_cases hd : n ∈ g.dependencies m
      · rw [if_pos hd] at hzero
        exact .inr ⟨hd, hzero, hne, hstate⟩
      · rw [if_neg hd] at hzero
        exact .inl ((hm.2 ⟨hstate, hzero⟩).resolve_left hne)
  sorted := h.sorted.sublist List.erase_sublist

theorem mem_stopped (h : a.Tracks g p waiting) : n ∈ a.stopped ↔ p.Failed n ∨ g.OnCycle n := by
  rw [stopped, NameMap.mem_keys_filter a.states_sorted fun s => s == .failure || s == .cycle,
    ← h.marks.failure, ← h.marks.cycle]
  cases a.states.get? n <;> simp

open Classical in
/-- Blocking the layers behind a failure or a cycle gives the final states. -/
theorem blocked_eq {c : Closure} (h : a.Tracks c.graph p waiting) : a.blocked c.graph = finalStates c p := by
  refine NameMap.Sorted.ext (a.states_sorted.foldl_modify _ _)
    (NameMap.sorted_map_pair (NameSet.sorted_ofList _) _) fun m => ?_
  have hblock := NameMap.get?_foldl_modify (f := fun s => if s = .unprocessed then .blocked else s)
    (fun s => by cases s <;> rfl) (c.graph.transitiveDependents a.stopped) a.states m
  have hbehind : m ∈ c.graph.transitiveDependents a.stopped ↔
      p.Behind c m ∧ ¬ (p.Failed m ∨ c.graph.OnCycle m) := by
    simp only [LayerGraph.mem_transitiveDependents, h.mem_stopped, Progress.Behind, and_comm]
  rw [blocked, hblock, if_congr hbehind rfl rfl, get?_finalStates]
  have hnode := h.marks.node m
  have hcycle := h.marks.cycle m
  have hsuccess := h.marks.success m
  have hfailure := h.marks.failure m
  have hsettled := h.marks.settled m
  cases hs : a.states.get? m with
  | none =>
    have hm : m ∉ c.graph.nodes := by simpa [hs] using hnode
    simp [hm]
  | some s =>
    rw [hs] at hnode hcycle hsuccess hfailure hsettled
    cases s <;> simp_all

end Tracks

end Agenda

/-! ### The run -/

variable {strict : Bool} {tree : Tree} {c : Closure} {a : Agenda} {p : Progress} {t : Tally} {waiting : List String}
variable {n : String} {rest : NameSet}

/-- What one layer's turn does to the tally. -/
theorem turn_cases (strict : Bool) (tree : Tree) (n : String) (layer : Layer) (t : Tally) :
    (∃ e, turn strict tree n layer t = .error e) ∨
      (∃ t', turn strict tree n layer t = .ok (true, t') ∧ t'.failures = t.failures) ∨
      ∃ t' fault, turn strict tree n layer t = .ok (false, t') ∧ t'.failures = t.failures ++ [(n, fault)] := by
  rw [turn]
  split
  next => exact .inr (.inl ⟨_, rfl, rfl⟩)
  next fault _ =>
    split
    next => exact .inl ⟨_, rfl⟩
    next => exact .inr (.inr ⟨_, fault, rfl, rfl⟩)

theorem loop_nil (h : a.ready = []) : loop strict tree c a t = .ok (a, t) := by
  rw [loop]
  split
  next => rfl
  next h' => cases h.symm.trans h'

theorem loop_cons (h : a.ready = n :: rest) :
    loop strict tree c a t =
      match c.handles.get? n with
      | none => .error (.unknownLayer n)
      | some layer =>
        match turn strict tree n layer t with
        | .error e => .error e
        | .ok (true, t) => loop strict tree c (a.pass c.graph h) t
        | .ok (false, t) => loop strict tree c (a.fail h) t := by
  rw [loop]
  split
  next h' => cases h.symm.trans h'
  next n' rest' h' =>
    obtain ⟨rfl, rfl⟩ := List.cons.inj (h'.symm.trans h)
    rfl

/-- The loop over the counts ends where the run by readiness does. -/
theorem loop_eq_advance (h : a.Tracks c.graph p waiting) :
    (∃ e, advance strict tree c waiting p = .error e ∧ loop strict tree c a p.toTally = .error e) ∨
      ∃ p' a' waiting', advance strict tree c waiting p = .ok p' ∧
        loop strict tree c a p.toTally = .ok (a', p'.toTally) ∧ Agenda.Tracks a' c.graph p' waiting' := by
  fun_induction advance strict tree c waiting p generalizing a with
  | case1 waiting p hn =>
    rw [h.find?_eq, List.head?_eq_none_iff] at hn
    exact .inr ⟨p, a, waiting, rfl, loop_nil hn, h⟩
  | case2 waiting p n hn hl =>
    rw [h.find?_eq, List.head?_eq_some_iff] at hn
    obtain ⟨rest, hr⟩ := hn
    exact .inl ⟨_, rfl, by rw [loop_cons hr, hl]⟩
  | case3 waiting p n hn layer hl e he =>
    rw [h.find?_eq, List.head?_eq_some_iff] at hn
    obtain ⟨rest, hr⟩ := hn
    rw [loop_cons hr, hl]
    rcases turn_cases strict tree n layer p.toTally with ⟨e', ht⟩ | ⟨t', ht, -⟩ | ⟨t', fault, ht, -⟩
    · rw [step, ht] at he
      cases he
      exact .inl ⟨e, rfl, by simp only [ht]⟩
    · rw [step, ht] at he
      cases he
    · rw [step, ht] at he
      cases he
  | case4 waiting p n hn layer hl p' he ih =>
    rw [h.find?_eq, List.head?_eq_some_iff] at hn
    obtain ⟨rest, hr⟩ := hn
    rw [loop_cons hr, hl]
    rcases turn_cases strict tree n layer p.toTally with ⟨e, ht⟩ | ⟨t', ht, hf⟩ | ⟨t', fault, ht, hf⟩
    · rw [step, ht] at he
      cases he
    · rw [step, ht] at he
      cases he
      simp only [ht]
      exact ih (h.pass hr rfl hf)
    · rw [step, ht] at he
      cases he
      simp only [ht]
      exact ih (h.fail hr rfl hf)

/-- A run that no cycle ends does what readiness tells. -/
theorem run_eq_map_advance {table : FactTable} (h : strict = false ∨ c.graph.cycles = []) :
    run strict tree c table =
      (advance strict tree c (waitingAtStart c.graph) (.start table)).map fun p => (p.table, reportOf c p) := by
  have hfree : (if strict then c.graph.cycles.head? else none) = none := by
    rcases h with rfl | h
    · rfl
    · rw [h, List.head?_nil, ite_self]
  rw [run, hfree]
  rcases loop_eq_advance (Agenda.tracks_start c.graph table) with ⟨e, ha, hl⟩ | ⟨p, a, waiting, ha, hl, ht⟩
  · have hl : loop strict tree c (.start c.graph c.graph.cycles.flatten) (.start table) = .error e := hl
    simp only [ha, hl, Except.map]
  · have hl : loop strict tree c (.start c.graph c.graph.cycles.flatten) (.start table) = .ok (a, p.toTally) := hl
    simp only [ha, hl, Except.map, ht.blocked_eq, reportOf]

theorem run_strict_of_cycle {table : FactTable} {layers : List String} (h : c.graph.cycles.head? = some layers) :
    run true tree c table = .error (.cycle layers) := by
  rw [run, if_pos rfl, h]

end LayerCheck.Schedule
