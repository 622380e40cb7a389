import Mathlib
import LayerCheck.Proofs.Schedule.Readiness

/-! What a run that goes on past failures has done at each point. The order in which layers ran tells all the
rest: the facts known after it, how each of the checks ended, and which layers are ready to run next. -/
namespace LayerCheck

/-- Every layer of the graph can be found. -/
def Closure.Covered (c : Closure) : Prop := ∀ n ∈ c.graph.nodes, (c.handles.get? n).isSome = true

instance (c : Closure) : Decidable c.Covered :=
  inferInstanceAs (Decidable (∀ n ∈ c.graph.nodes, (c.handles.get? n).isSome = true))

namespace Schedule

variable (tree : Tree) (c : Closure) (table : FactTable)

/-- The facts after a layer has run; those of a failed layer are taken back. -/
def factsAfter (layer : Layer) (table : FactTable) : FactTable :=
  let v := layer.check tree table
  match v.outcome with
  | .ok () => v.table
  | .error _ => v.table.rollback table.size

/-- The facts after the layers of `order` have run in turn. -/
def replay (order : List String) : FactTable :=
  order.foldl (fun facts n => ((c.handles.get? n).map (factsAfter tree · facts)).getD facts) table

/-- The check of `n` ran, on the facts left by all that ran before it, and came to `outcome`. -/
def Ended (order : List String) (n : String) (outcome : Except Fault Unit) : Prop :=
  ∃ past layer, past ++ [n] <+: order ∧ c.handles.get? n = some layer ∧
    (layer.check tree (replay tree c table past)).outcome = outcome

/-- After `past`, the layer `n` has not run and all that it waits for has succeeded. -/
def Ready (past : List String) (n : String) : Prop :=
  n ∈ c.graph.nodes ∧ n ∉ past ∧ ∀ d ∈ c.graph.dependencies n, Ended tree c table past d (.ok ())

variable {tree c table} {order : List String} {n m : String}

theorem Ended.mem {outcome : Except Fault Unit} (h : Ended tree c table order n outcome) : n ∈ order := by
  obtain ⟨past, layer, hp, -⟩ := h
  exact hp.subset (by simp)

theorem Ended.mono {past : List String} {outcome : Except Fault Unit} (h : Ended tree c table past n outcome)
    (hp : past <+: order) : Ended tree c table order n outcome := by
  obtain ⟨earlier, layer, he, hl, ho⟩ := h
  exact ⟨earlier, layer, he.trans hp, hl, ho⟩

/-- A layer that runs once has one past. -/
theorem past_unique {past past' : List String} (hn : order.Nodup) (hp : past ++ [n] <+: order)
    (hp' : past' ++ [n] <+: order) : past = past' := by
  obtain ⟨rest, rfl⟩ := hp
  obtain ⟨rest', heq⟩ := hp'
  rw [List.append_assoc, List.append_assoc, List.singleton_append, List.singleton_append] at heq
  rw [List.append_assoc, List.singleton_append, List.nodup_middle, List.nodup_cons, List.mem_append,
    not_or] at hn
  exact ((List.append_cons_inj_of_notMem hn.1.1 hn.1.2).1 heq.symm).1

/-- A layer that runs once ends in one way. -/
theorem Ended.unique {o o' : Except Fault Unit} (hn : order.Nodup) (h : Ended tree c table order n o)
    (h' : Ended tree c table order n o') : o = o' := by
  obtain ⟨past, layer, hp, hl, rfl⟩ := h
  obtain ⟨past', layer', hp', hl', rfl⟩ := h'
  obtain rfl := Option.some.inj (hl.symm.trans hl')
  rw [past_unique hn hp hp']

theorem replay_concat {layer : Layer} (hl : c.handles.get? n = some layer) :
    replay tree c table (order ++ [n]) = factsAfter tree layer (replay tree c table order) := by
  simp [replay, List.foldl_append, hl]

theorem ended_concat {layer : Layer} {o : Except Fault Unit} (hl : c.handles.get? n = some layer) :
    Ended tree c table (order ++ [n]) m o ↔
      Ended tree c table order m o ∨ m = n ∧ (layer.check tree (replay tree c table order)).outcome = o := by
  constructor
  · rintro ⟨past, layer', hp, hl', ho⟩
    rcases List.prefix_concat_iff.1 hp with heq | hp
    · obtain ⟨rfl, hmn⟩ := List.append_inj' heq rfl
      obtain rfl := List.singleton_inj.1 hmn
      obtain rfl := Option.some.inj (hl.symm.trans hl')
      exact .inr ⟨rfl, ho⟩
    · exact .inl ⟨past, layer', hp, hl', ho⟩
  · rintro (h | ⟨rfl, ho⟩)
    · exact h.mono (List.prefix_append _ _)
    · exact ⟨order, layer, List.prefix_rfl, hl, ho⟩

/-- What one layer's turn changes. -/
theorem step_tolerant (tree : Tree) (n : String) (layer : Layer) (p : Progress) :
    ∃ p', step false tree n layer p = .ok p' ∧ p'.order = p.order ++ [n] ∧
      p'.table = factsAfter tree layer p.table ∧
      (∀ m, m ∈ p'.succeeded ↔ m ∈ p.succeeded ∨ m = n ∧ (layer.check tree p.table).outcome = .ok ()) ∧
      ∀ m fault, (m, fault) ∈ p'.failures ↔
        (m, fault) ∈ p.failures ∨ m = n ∧ (layer.check tree p.table).outcome = .error fault := by
  cases h : (layer.check tree p.table).outcome with
  | ok _ =>
    simp only [step, turn, factsAfter, h]
    exact ⟨_, rfl, rfl, rfl, by simp, by simp⟩
  | error fault =>
    simp only [step, turn, factsAfter, h]
    exact ⟨_, rfl, rfl, rfl, by simp, by simp [eq_comm]⟩

/-! ### The invariant -/

/-- What holds of a run whenever a layer is about to be chosen. -/
structure History (tree : Tree) (c : Closure) (table : FactTable) (p : Progress) (waiting : List String) :
    Prop where
  facts : p.table = replay tree c table p.order
  mem_waiting : ∀ n, n ∈ waiting ↔ n ∈ c.graph.nodes ∧ ¬ c.graph.OnCycle n ∧ n ∉ p.order
  sorted : NameSet.Sorted waiting
  nodup : p.order.Nodup
  free : ∀ n ∈ p.order, ¬ c.graph.OnCycle n
  succeeded : ∀ n, n ∈ p.succeeded ↔ Ended tree c table p.order n (.ok ())
  failures : ∀ n fault, (n, fault) ∈ p.failures ↔ Ended tree c table p.order n (.error fault)
  least : ∀ past n, past ++ [n] <+: p.order →
    Ready tree c table past n ∧ ∀ m, Ready tree c table past m → m ≠ n → n < m

variable {p : Progress} {waiting : List String}

theorem History.start :
    History tree c table (.start table) (waitingAtStart c.graph) where
  facts := rfl
  mem_waiting n := by
    simp only [waitingAtStart, List.mem_filter, LayerGraph.mem_layers, Bool.not_eq_true', ← Bool.not_eq_true,
      List.contains_iff_mem, LayerGraph.mem_flatten_cycles, Progress.start, Tally.start, List.not_mem_nil,
      not_false_eq_true, and_true]
  sorted := (NameSet.sorted_ofList _).filter _
  nodup := List.nodup_nil
  free := List.forall_mem_nil _
  succeeded n := ⟨fun h => absurd h List.not_mem_nil, fun h => absurd h.mem List.not_mem_nil⟩
  failures n fault := ⟨fun h => absurd h List.not_mem_nil, fun h => absurd h.mem List.not_mem_nil⟩
  least past n h := absurd (List.prefix_nil.1 h) (by simp)

/-- The layers that are ready are those of the waiting ones that the run takes for ready. -/
theorem History.ready_iff (h : History tree c table p waiting) :
    Ready tree c table p.order n ↔ n ∈ waiting ∧ ready c.graph p.succeeded n = true := by
  have hready : ready c.graph p.succeeded n = true ↔
      ∀ d ∈ c.graph.dependencies n, Ended tree c table p.order d (.ok ()) := by
    simp [ready, h.succeeded]
  rw [hready, h.mem_waiting, Ready]
  constructor
  · rintro ⟨hn, ho, hd⟩
    refine ⟨⟨hn, fun hc => ?_, ho⟩, hd⟩
    -- on a cycle, a layer waits for another one that never runs
    obtain ⟨d, hdn, hdc⟩ := hc.exists_dependency
    exact h.free d (hd d hdn).mem hdc
  · rintro ⟨⟨hn, -, ho⟩, hd⟩
    exact ⟨hn, ho, hd⟩

theorem least_of_find? {r : String → Bool} (hs : NameSet.Sorted waiting) (h : waiting.find? r = some n) :
    ∀ m ∈ waiting, r m = true → m ≠ n → n < m := by
  obtain ⟨-, before, behind, rfl, hb⟩ := List.find?_eq_some_iff_append.1 h
  intro m hm hr hne
  rcases List.mem_append.1 hm with hm | hm
  · exact absurd hr (by simpa using hb m hm)
  · have hm : m ∈ behind := List.mem_of_ne_of_mem hne hm
    exact (List.pairwise_cons.1 (List.pairwise_append.1 hs).2.1).1 m hm

theorem History.step {layer : Layer} (h : History tree c table p waiting)
    (hn : waiting.find? (ready c.graph p.succeeded) = some n) (hl : c.handles.get? n = some layer) :
    ∃ p', step false tree n layer p = .ok p' ∧ History tree c table p' (waiting.erase n) := by
  obtain ⟨p', hp', ho, ht, hs, hf⟩ := step_tolerant tree n layer p
  have hr : Ready tree c table p.order n :=
    h.ready_iff.2 ⟨List.mem_of_find?_eq_some hn, List.find?_some hn⟩
  have hfree : ¬ c.graph.OnCycle n := ((h.mem_waiting n).1 (List.mem_of_find?_eq_some hn)).2.1
  have hsorted : NameSet.Sorted (waiting.erase n) := h.sorted.sublist List.erase_sublist
  refine ⟨p', hp', ⟨?_, fun m => ?_, hsorted, ?_, ?_, fun m => ?_, fun m fault => ?_, ?_⟩⟩
  · rw [ht, ho, replay_concat hl, h.facts]
  · rw [ho, h.sorted.nodup.mem_erase_iff, h.mem_waiting, List.mem_append, List.mem_singleton, not_or]
    tauto
  · rw [ho]
    exact List.concat_eq_append ▸ h.nodup.concat hr.2.1
  · rw [ho]
    intro m hm
    rcases List.mem_append.1 hm with hm | hm
    · exact h.free m hm
    · obtain rfl := List.mem_singleton.1 hm
      exact hfree
  · rw [hs, ho, ended_concat hl, h.succeeded, h.facts]
  · rw [hf, ho, ended_concat hl, h.failures, h.facts]
  · rw [ho]
    intro past k hk
    rcases List.prefix_concat_iff.1 hk with heq | hk
    · obtain ⟨rfl, hkn⟩ := List.append_inj' heq rfl
      obtain rfl := List.singleton_inj.1 hkn
      refine ⟨hr, fun m hm hmk => ?_⟩
      obtain ⟨hmw, hmr⟩ := h.ready_iff.1 hm
      exact least_of_find? h.sorted hn m hmw hmr hmk
    · exact h.least past k hk

/-- A run ends when no layer is ready. -/
theorem History.of_advance {p' : Progress} (h : History tree c table p waiting)
    (ha : advance false tree c waiting p = .ok p') :
    (∃ rest, History tree c table p' rest) ∧ ∀ n, ¬ Ready tree c table p'.order n := by
  fun_induction Schedule.advance false tree c waiting p with
  | case1 waiting p hn =>
    cases ha
    refine ⟨⟨waiting, h⟩, fun n hr => ?_⟩
    obtain ⟨hw, hr⟩ := h.ready_iff.1 hr
    exact List.find?_eq_none.1 hn n hw hr
  | case2 => cases ha
  | case3 => cases ha
  | case4 waiting p n hn layer hl q he ih =>
    obtain ⟨q', hq', hh⟩ := h.step hn hl
    obtain rfl := Except.ok.inj (he.symm.trans hq')
    exact ih hh ha

/-- A run over layers that can all be found comes to an end. -/
theorem History.advance (covered : c.Covered)
    (h : History tree c table p waiting) :
    ∃ p' rest, advance false tree c waiting p = .ok p' ∧ History tree c table p' rest ∧
      ∀ n, ¬ Ready tree c table p'.order n := by
  suffices hp' : ∃ p', Schedule.advance false tree c waiting p = .ok p' by
    obtain ⟨p', hp'⟩ := hp'
    obtain ⟨⟨rest, hrest⟩, stuck⟩ := h.of_advance hp'
    exact ⟨p', rest, hp', hrest, stuck⟩
  fun_induction Schedule.advance false tree c waiting p with
  | case1 waiting p hn => exact ⟨p, rfl⟩
  | case2 waiting p n hn hl =>
    have hc := covered n ((h.mem_waiting n).1 (List.mem_of_find?_eq_some hn)).1
    rw [hl] at hc
    cases hc
  | case3 waiting p n hn layer hl e he =>
    obtain ⟨p', hp', -⟩ := h.step hn hl
    cases he.symm.trans hp'
  | case4 waiting p n hn layer hl p' he ih =>
    obtain ⟨q, hq, hh⟩ := h.step hn hl
    obtain rfl := Except.ok.inj (he.symm.trans hq)
    exact ih hh

theorem History.exists_past (h : History tree c table p waiting) (hn : n ∈ p.order) :
    ∃ past, past ++ [n] <+: p.order ∧ Ready tree c table past n := by
  obtain ⟨past, rest, heq⟩ := List.append_of_mem hn
  have hp : past ++ [n] <+: p.order := ⟨rest, by simp [heq]⟩
  exact ⟨past, hp, (h.least past n hp).1⟩

/-! ### What the invariant says of the layers -/

namespace History

theorem failed_iff (h : History tree c table p waiting) :
    p.Failed n ↔ ∃ fault, Ended tree c table p.order n (.error fault) := by
  simp only [Progress.Failed, h.failures]

theorem not_failed_of_succeeded (h : History tree c table p waiting) (hn : n ∈ p.succeeded) : ¬ p.Failed n := by
  intro hf
  obtain ⟨fault, hf⟩ := h.failed_iff.1 hf
  cases hf.unique h.nodup ((h.succeeded n).1 hn)

theorem mem_order (covered : c.Covered)
    (h : History tree c table p waiting) : n ∈ p.order ↔ n ∈ p.succeeded ∨ p.Failed n := by
  rw [h.succeeded, h.failed_iff]
  constructor
  · intro hn
    obtain ⟨past, hp, hr⟩ := h.exists_past hn
    obtain ⟨layer, hl⟩ := Option.isSome_iff_exists.1 (covered n hr.1)
    cases ho : (layer.check tree (replay tree c table past)).outcome with
    | ok _ => exact .inl ⟨past, layer, hp, hl, ho⟩
    | error fault => exact .inr ⟨fault, past, layer, hp, hl, ho⟩
  · rintro (hn | ⟨fault, hn⟩)
    · exact hn.mem
    · exact hn.mem

/-- Everything that comes before a layer that ran has succeeded. -/
theorem succeeded_of_before (h : History tree c table p waiting) (hn : n ∈ p.order) (hb : c.graph.Before m n) :
    m ∈ p.succeeded := by
  have direct : ∀ {d k : String}, (d, k) ∈ c.graph.edges → k ∈ p.order → d ∈ p.succeeded := by
    intro d k he hk
    obtain ⟨past, hp, hr⟩ := h.exists_past hk
    have hd := hr.2.2 d (LayerGraph.mem_dependencies.2 he)
    exact (h.succeeded d).2 (hd.mono ((List.prefix_append _ _).trans hp))
  induction hb with
  | single he => exact direct he hn
  | tail _ he ih => exact ih ((h.succeeded _).1 (direct he hn)).mem

theorem not_behind (h : History tree c table p waiting) (hn : n ∈ p.order) : ¬ p.Behind c n := by
  rintro ⟨m, hb, hf | hc⟩
  · exact h.not_failed_of_succeeded (h.succeeded_of_before hn hb) hf
  · exact h.free m ((h.succeeded m).1 (h.succeeded_of_before hn hb)).mem hc

/-- When no layer is ready, one that has not run stands behind a failure or a cycle. -/
theorem behind_of_stuck (covered : c.Covered)
    (h : History tree c table p waiting) (stuck : ∀ n, ¬ Ready tree c table p.order n) (hn : n ∈ c.graph.nodes)
    (hc : ¬ c.graph.OnCycle n) (ho : n ∉ p.order) : p.Behind c n := by
  revert hn ho
  refine LayerGraph.before_induction hc fun n _ ih hn ho => ?_
  have waits : ∃ d ∈ c.graph.dependencies n, d ∉ p.succeeded := by
    by_contra hall
    push Not at hall
    exact stuck n ⟨hn, ho, fun d hd => (h.succeeded d).1 (hall d hd)⟩
  obtain ⟨d, hd, hds⟩ := waits
  have hdn : c.graph.Before d n := .single (LayerGraph.mem_dependencies.1 hd)
  by_cases hdc : c.graph.OnCycle d
  · exact ⟨d, hdn, .inr hdc⟩
  · by_cases hdo : d ∈ p.order
    · exact ⟨d, hdn, .inl (((h.mem_order covered).1 hdo).resolve_left hds)⟩
    · obtain ⟨m, hmd, hm⟩ := ih d hdn hdc hdn.mem_left hdo
      exact ⟨m, hmd.trans hdn, hm⟩

end History

end Schedule

end LayerCheck
