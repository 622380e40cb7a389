import Mathlib
import LayerCheck.Proofs.Fact.Rollback
import LayerCheck.Proofs.Schedule.FinalStates

/-! Failures leave no trace. Where checks change the table by adding facts alone, a run that goes on past
failures does to the table what a run over the layers that succeed in it does: these run in the same order, each
of them on the same table, and the table is the same in the end. -/
namespace LayerCheck

/-- The check of a program by a layer changes the table by adding facts alone. -/
def Layer.OnlyAdds (tree : Tree) (layer : Layer) : Prop :=
  ∀ table : FactTable, table.Extends (layer.check tree table).table

namespace LayerGraph

variable {g : LayerGraph} {kept : List String}

theorem closed_induced (g : LayerGraph) (kept : List String) :
    ∀ e ∈ g.edges.filter (fun e => kept.contains e.1 && kept.contains e.2),
      e.1 ∈ g.nodes.filter kept.contains ∧ e.2 ∈ g.nodes.filter kept.contains := by
  intro e he
  obtain ⟨he, hk⟩ := List.mem_filter.1 he
  obtain ⟨h₁, h₂⟩ := Bool.and_eq_true_iff.1 hk
  have hc := g.closed e he
  exact ⟨List.mem_filter.2 ⟨hc.1, h₁⟩, List.mem_filter.2 ⟨hc.2, h₂⟩⟩

/-- The layers of a graph that are among some, with the edges between them. -/
def induced (g : LayerGraph) (kept : List String) : LayerGraph :=
  ⟨g.nodes.filter kept.contains, g.edges.filter fun e => kept.contains e.1 && kept.contains e.2,
    g.closed_induced kept⟩

theorem mem_nodes_induced {n : String} : n ∈ (g.induced kept).nodes ↔ n ∈ g.nodes ∧ n ∈ kept := by
  simp [induced]

theorem mem_dependencies_induced {n d : String} :
    d ∈ (g.induced kept).dependencies n ↔ d ∈ g.dependencies n ∧ d ∈ kept ∧ n ∈ kept := by
  simp [mem_dependencies, induced]

end LayerGraph

/-- The part of a closure over some of its layers. -/
def Closure.restrict (c : Closure) (kept : List String) : Closure := { c with graph := c.graph.induced kept }

namespace Schedule

variable {tree : Tree} {c : Closure} {table : FactTable} {p : Progress} {waiting : List String} {n : String}

/-- The check of `n` ran on the facts `seen`. -/
def Saw (tree : Tree) (c : Closure) (table : FactTable) (order : List String) (n : String) (seen : FactTable) :
    Prop :=
  ∃ past, past ++ [n] <+: order ∧ replay tree c table past = seen

/-- The check of `n` wrote a fact at a place that was free. -/
def Wrote (tree : Tree) (c : Closure) (table : FactTable) (order : List String) (n : String) (place : Fact.Place)
    (fact : Fact) : Prop :=
  ∃ seen layer, Saw tree c table order n seen ∧ c.handles.get? n = some layer ∧ seen.get? place = none ∧
    (layer.check tree seen).table.get? place = some fact

/-! ### The order of a run -/

/-- Each layer of an order was the first by name of those that were ready, and none is ready after it. -/
structure Greedy (tree : Tree) (c : Closure) (table : FactTable) (order : List String) : Prop where
  least : ∀ past n, past ++ [n] <+: order →
    Ready tree c table past n ∧ ∀ m, Ready tree c table past m → m ≠ n → n < m
  stuck : ∀ n, ¬ Ready tree c table order n

theorem Greedy.isPrefix {order order' past : List String} (h : Greedy tree c table order)
    (h' : Greedy tree c table order') (hp : past <+: order) : past <+: order' := by
  induction past using List.reverseRecOn with
  | nil => exact List.nil_prefix
  | append_singleton past n ih =>
    obtain ⟨hn, hleast⟩ := h.least past n hp
    obtain ⟨rest, rfl⟩ := ih ((List.prefix_append past [n]).trans hp)
    cases rest with
    | nil => exact absurd (by simpa using hn) (h'.stuck n)
    | cons m rest =>
      have hm : past ++ [m] <+: past ++ m :: rest := ⟨rest, by simp⟩
      obtain ⟨hm', hleast'⟩ := h'.least past m hm
      by_cases hmn : m = n
      · exact hmn ▸ hm
      · exact absurd (hleast m hm' hmn) (String.lt_asymm (hleast' n hn (Ne.symm hmn)))

/-- The checks and the graph leave no choice of the order. -/
theorem Greedy.unique {order order' : List String} (h : Greedy tree c table order)
    (h' : Greedy tree c table order') : order = order' := by
  have hp := h.isPrefix h' List.prefix_rfl
  exact hp.eq_of_length_le (h'.isPrefix h List.prefix_rfl).length_le

/-! ### The layers that succeeded -/

section

variable {kept : List String}

theorem exists_prefix_of_prefix_filter {order past : List String} (h : past ++ [n] <+: order.filter kept.contains) :
    ∃ earlier, earlier ++ [n] <+: order ∧ earlier.filter kept.contains = past := by
  obtain ⟨rest, hrest⟩ := h
  obtain ⟨first, second, rfl, hfirst, hsecond⟩ := List.filter_eq_append_iff.1 hrest.symm
  obtain ⟨before, middle, rfl, hbefore, hmiddle⟩ := List.filter_eq_append_iff.1 hfirst
  obtain ⟨skipped, behind, rfl, hskipped, -, hbehind⟩ := List.filter_eq_cons_iff.1 hmiddle
  refine ⟨before ++ skipped, ⟨behind ++ second, by simp⟩, ?_⟩
  rw [List.filter_append, hbefore, List.filter_eq_nil_iff.2 hskipped, List.append_nil]

theorem prefix_filter {order past : List String} (hn : n ∈ kept) (h : past ++ [n] <+: order) :
    past.filter kept.contains ++ [n] <+: order.filter kept.contains := by
  obtain ⟨rest, rfl⟩ := h
  refine ⟨rest.filter kept.contains, ?_⟩
  simp [List.filter_append, hn]

theorem replay_restrict (order : List String) :
    replay tree (c.restrict kept) table order = replay tree c table order := rfl

variable (h : History tree c table p waiting) (hkept : ∀ n, n ∈ kept ↔ n ∈ p.succeeded)
  (adds : ∀ n layer, c.handles.get? n = some layer → layer.OnlyAdds tree)

include h hkept adds

/-- A layer that succeeded leaves the table of its check; any other layer that ran leaves no change. -/
theorem replay_step {past : List String} (hp : past ++ [n] <+: p.order) :
    n ∈ kept ∧ (∃ layer, c.handles.get? n = some layer ∧
        replay tree c table (past ++ [n]) = (layer.check tree (replay tree c table past)).table) ∨
      n ∉ kept ∧ replay tree c table (past ++ [n]) = replay tree c table past := by
  cases hl : c.handles.get? n with
  | none =>
    refine .inr ⟨fun hn => ?_, by simp [replay, List.foldl_append, hl]⟩
    obtain ⟨_, layer, -, hl', -⟩ := (h.succeeded n).1 ((hkept n).1 hn)
    cases hl.symm.trans hl'
  | some layer =>
    rw [replay_concat hl]
    cases ho : (layer.check tree (replay tree c table past)).outcome with
    | ok u =>
      have hn : n ∈ kept := (hkept n).2 ((h.succeeded n).2 ⟨past, layer, hp, hl, ho⟩)
      exact .inl ⟨hn, layer, rfl, by simp only [factsAfter, ho]⟩
    | error fault =>
      refine .inr ⟨fun hn => ?_, ?_⟩
      · have hfailed : p.Failed n := ⟨fault, (h.failures n fault).2 ⟨past, layer, hp, hl, ho⟩⟩
        exact h.not_failed_of_succeeded ((hkept n).1 hn) hfailed
      · simp only [factsAfter, ho]
        exact (adds n layer hl _).rollback_eq

/-- The layers that succeeded, run alone, leave the facts that all the layers leave. -/
theorem replay_filter {past : List String} (hp : past <+: p.order) :
    replay tree c table (past.filter kept.contains) = replay tree c table past := by
  induction past using List.reverseRecOn with
  | nil => rfl
  | append_singleton past n ih =>
    have ih := ih ((List.prefix_append past [n]).trans hp)
    rcases replay_step h hkept adds hp with ⟨hn, layer, hl, -⟩ | ⟨hn, same⟩
    · rw [List.filter_append, List.filter_cons_of_pos (by simpa using hn), List.filter_nil, replay_concat hl,
        replay_concat hl, ih]
    · rw [same, List.filter_append, List.filter_cons_of_neg (by simpa using hn), List.filter_nil, List.append_nil, ih]

theorem ended_filter {past : List String} {o : Except Fault Unit} (hp : past <+: p.order) :
    Ended tree (c.restrict kept) table (past.filter kept.contains) n o ↔
      Ended tree c table past n o ∧ n ∈ kept := by
  constructor
  · intro he
    have hn : n ∈ kept := by simpa using (List.mem_filter.1 he.mem).2
    obtain ⟨_, layer, hpre, hl, ho⟩ := he
    obtain ⟨earlier, hpre', rfl⟩ := exists_prefix_of_prefix_filter hpre
    have same := replay_filter h hkept adds (((List.prefix_append _ _).trans hpre').trans hp)
    rw [replay_restrict, same] at ho
    exact ⟨⟨earlier, layer, hpre', hl, ho⟩, hn⟩
  · rintro ⟨⟨earlier, layer, hpre, hl, ho⟩, hn⟩
    have same := replay_filter h hkept adds (((List.prefix_append _ _).trans hpre).trans hp)
    refine ⟨earlier.filter kept.contains, layer, prefix_filter hn hpre, hl, ?_⟩
    rw [replay_restrict, same, ho]

theorem ready_filter {past : List String} (hp : past <+: p.order) :
    Ready tree (c.restrict kept) table (past.filter kept.contains) n ↔ Ready tree c table past n ∧ n ∈ kept := by
  have waits : n ∈ kept → ∀ d ∈ c.graph.dependencies n, d ∈ kept := by
    intro hn d hd
    have hran := ((h.succeeded n).1 ((hkept n).1 hn)).mem
    exact (hkept d).2 (h.succeeded_of_before hran (.single (LayerGraph.mem_dependencies.1 hd)))
  simp only [Ready, Closure.restrict, LayerGraph.mem_nodes_induced, LayerGraph.mem_dependencies_induced]
  constructor
  · rintro ⟨⟨hnode, hn⟩, hpast, hd⟩
    refine ⟨⟨hnode, fun hmem => hpast (List.mem_filter.2 ⟨hmem, by simpa using hn⟩), fun d hdn => ?_⟩, hn⟩
    exact ((ended_filter h hkept adds hp).1 (hd d ⟨hdn, waits hn d hdn, hn⟩)).1
  · rintro ⟨⟨hnode, hpast, hd⟩, hn⟩
    refine ⟨⟨hnode, hn⟩, fun hmem => hpast (List.mem_filter.1 hmem).1, fun d hdn => ?_⟩
    exact (ended_filter h hkept adds hp).2 ⟨hd d hdn.1, hdn.2.1⟩

/-- The order of the layers that succeeded is the one in which they run alone. -/
theorem greedy_filter : Greedy tree (c.restrict kept) table (p.order.filter kept.contains) where
  least past n hpre := by
    obtain ⟨earlier, hpre', rfl⟩ := exists_prefix_of_prefix_filter hpre
    have hn : n ∈ kept := by simpa using (List.mem_filter.1 (hpre.subset (by simp : n ∈ _ ++ [n]))).2
    have hp : earlier <+: p.order := (List.prefix_append _ _).trans hpre'
    obtain ⟨hr, hl⟩ := h.least earlier n hpre'
    refine ⟨(ready_filter h hkept adds hp).2 ⟨hr, hn⟩, fun m hm hne => ?_⟩
    exact hl m ((ready_filter h hkept adds hp).1 hm).1 hne
  stuck n hr := by
    obtain ⟨⟨-, hnot, -⟩, hn⟩ := (ready_filter h hkept adds List.prefix_rfl).1 hr
    exact hnot ((h.succeeded n).1 ((hkept n).1 hn)).mem

theorem saw_filter {seen : FactTable} :
    Saw tree (c.restrict kept) table (p.order.filter kept.contains) n seen ↔
      Saw tree c table p.order n seen ∧ n ∈ kept := by
  constructor
  · rintro ⟨past, hpre, rfl⟩
    have hn : n ∈ kept := by simpa using (List.mem_filter.1 (hpre.subset (by simp : n ∈ past ++ [n]))).2
    obtain ⟨earlier, hpre', rfl⟩ := exists_prefix_of_prefix_filter hpre
    exact ⟨⟨earlier, hpre', (replay_filter h hkept adds ((List.prefix_append _ _).trans hpre')).symm⟩, hn⟩
  · rintro ⟨⟨past, hpre, rfl⟩, hn⟩
    exact ⟨_, prefix_filter hn hpre, replay_filter h hkept adds ((List.prefix_append _ _).trans hpre)⟩

/-- Every fact was there from the start or was written by a layer that succeeded. -/
theorem wrote_of_get? {past : List String} (hp : past <+: p.order) {place : Fact.Place} {fact : Fact}
    (hf : (replay tree c table past).get? place = some fact) :
    table.get? place = some fact ∨ ∃ n ∈ kept, Wrote tree c table p.order n place fact := by
  induction past using List.reverseRecOn with
  | nil => exact .inl hf
  | append_singleton past n ih =>
    have ih := ih ((List.prefix_append past [n]).trans hp)
    rcases replay_step h hkept adds hp with ⟨hn, layer, hl, hreplay⟩ | ⟨-, same⟩
    · cases hb : (replay tree c table past).get? place with
      | none => exact .inr ⟨n, hn, _, layer, ⟨past, hp, rfl⟩, hl, hb, hreplay ▸ hf⟩
      | some fact' =>
        have hkeeps := (adds n layer hl _).get?_eq_some hb
        rw [hreplay, hkeeps] at hf
        exact ih (hf ▸ hb)
    · exact ih (same ▸ hf)

end

/-! ### Two runs -/

theorem sorted_finalStates (c : Closure) (p : Progress) : (finalStates c p).Sorted :=
  NameMap.sorted_map_pair (NameSet.sorted_ofList c.graph.nodes) _

theorem History.mem_layersIn_success (h : History tree c table p waiting) {r : Report}
    (hr : r.states = finalStates c p) : n ∈ r.layersIn .success ↔ n ∈ p.succeeded := by
  rw [← h.get?_eq_success, Report.layersIn, hr]
  refine (NameMap.mem_keys_filter (sorted_finalStates c p) (· == .success)).trans ?_
  simp

theorem History.saw_unique (h : History tree c table p waiting) (hn : n ∈ p.order) :
    ∃ seen, ∀ facts, Saw tree c table p.order n facts ↔ facts = seen := by
  obtain ⟨past, hp, -⟩ := h.exists_past hn
  refine ⟨replay tree c table past, fun facts => ⟨?_, fun hf => ⟨past, hp, hf.symm⟩⟩⟩
  rintro ⟨past', hp', rfl⟩
  rw [past_unique h.nodup hp hp']

/-- How a run over the layers that succeeded in a first run, reported as `r'`, repeats that run. -/
structure Isolated (tree : Tree) (c : Closure) (table table' : FactTable) (r r' : Report) : Prop where
  /-- The second run has the layers that succeeded in the first, and they succeed again. -/
  states : ∀ n, r'.states.get? n = if n ∈ r.layersIn .success then some .success else none
  success : r'.success = true
  failures : r'.failures = []
  order : r'.order = r.order.filter (r.layersIn .success).contains
  /-- There is one table that each of them saw in either run. -/
  saw : ∀ n ∈ r.layersIn .success, ∃ seen, ∀ facts,
    (Saw tree c table r.order n facts ↔ facts = seen) ∧
      (Saw tree (c.restrict (r.layersIn .success)) table r'.order n facts ↔ facts = seen)
  /-- A fact was there from the start, or a layer that succeeded wrote it. -/
  facts : ∀ place fact, table'.get? place = some fact →
    table.get? place = some fact ∨ ∃ n ∈ r.layersIn .success, Wrote tree c table r.order n place fact

/-- A run over the layers that succeeded in another one. -/
theorem History.isolated (h : History tree c table p waiting) {kept : List String}
    (hkept : ∀ n, n ∈ kept ↔ n ∈ p.succeeded)
    (adds : ∀ n layer, c.handles.get? n = some layer → layer.OnlyAdds tree) :
    ∃ p' rest, run false tree (c.restrict kept) table = .ok (p.table, reportOf (c.restrict kept) p') ∧
      History tree (c.restrict kept) table p' rest ∧ p'.order = p.order.filter kept.contains ∧
      (∀ n, n ∈ p'.succeeded ↔ n ∈ kept) := by
  have covered : (c.restrict kept).Covered := by
    intro n hn
    obtain ⟨_, layer, -, hl, -⟩ := (h.succeeded n).1 ((hkept n).1 (LayerGraph.mem_nodes_induced.1 hn).2)
    exact Option.isSome_iff_exists.2 ⟨layer, hl⟩
  obtain ⟨p', rest, hp', h', stuck⟩ := History.start.advance covered
  have horder : p'.order = p.order.filter kept.contains :=
    Greedy.unique ⟨h'.least, stuck⟩ (greedy_filter h hkept adds)
  have htable : p'.table = p.table := by
    rw [h'.facts, horder, replay_restrict, replay_filter h hkept adds List.prefix_rfl, h.facts]
  refine ⟨p', rest, htable ▸ run_tolerant hp', h', horder, fun n => ?_⟩
  rw [h'.succeeded, horder, ended_filter h hkept adds List.prefix_rfl, ← h.succeeded, ← hkept]
  exact and_self_iff

/-- A run that goes on past failures does what a run over the layers that succeed in it does: they succeed again,
in the same order and each on the same table, and leave the same table, in which no failed layer has a part. -/
theorem exists_isolated_of_run {tree : Tree} {c : Closure} {table table' : FactTable} {r : Report}
    (adds : ∀ n layer, c.handles.get? n = some layer → layer.OnlyAdds tree)
    (hrun : run false tree c table = .ok (table', r)) :
    ∃ r', run false tree (c.restrict (r.layersIn .success)) table = .ok (table', r') ∧
      Isolated tree c table table' r r' := by
  obtain ⟨p, hp, rfl, hr⟩ := run_eq_ok hrun
  obtain ⟨⟨waiting, h⟩, -⟩ := History.start.of_advance hp
  have hkept : ∀ n, n ∈ r.layersIn .success ↔ n ∈ p.succeeded := fun n => h.mem_layersIn_success (by rw [hr]; rfl)
  have horder : r.order = p.order := by rw [hr]; rfl
  obtain ⟨p', rest, hrun', h', horder', hsucceeded⟩ := h.isolated hkept adds
  have hstates : ∀ n, (finalStates (c.restrict (r.layersIn .success)) p').get? n =
      if n ∈ r.layersIn .success then some .success else none := by
    intro n
    split
    next hn => exact h'.get?_eq_success.2 ((hsucceeded n).2 hn)
    next hn =>
      rw [get?_finalStates, if_pos]
      exact fun hnode => hn (LayerGraph.mem_nodes_induced.1 hnode).2
  have hreport : (reportOf (c.restrict (r.layersIn .success)) p').order =
      p.order.filter (r.layersIn .success).contains := horder'
  refine ⟨_, hrun', hstates, ?_, ?_, by rw [hreport, horder], fun n hn => ?_, fun place fact hf => ?_⟩
  · refine List.all_eq_true.2 fun ⟨n, s⟩ hn => ?_
    have hs := (hstates n).symm.trans ((sorted_finalStates _ _).get? hn)
    split at hs
    next =>
      cases hs
      rfl
    next => cases hs
  · refine List.eq_nil_iff_forall_not_mem.2 fun ⟨n, fault⟩ hn => ?_
    have hran : n ∈ p'.order := ((h'.failures n fault).1 hn).mem
    rw [horder'] at hran
    have hs : n ∈ p'.succeeded := (hsucceeded n).2 (by simpa using (List.mem_filter.1 hran).2)
    exact h'.not_failed_of_succeeded hs ⟨fault, hn⟩
  · obtain ⟨seen, hseen⟩ := h.saw_unique ((h.succeeded n).1 ((hkept n).1 hn)).mem
    refine ⟨seen, fun facts => ⟨horder ▸ hseen facts, ?_⟩⟩
    rw [hreport, saw_filter h hkept adds, hseen facts]
    exact and_iff_left hn
  · rw [h.facts] at hf
    exact horder ▸ wrote_of_get? h hkept adds List.prefix_rfl hf

/-- A layer that writes down whether it finds a single fact, under a name that need not be its own. -/
def tallyLayer (name under : String) (outcome : Except Fault Unit) : Layer where
  name := name
  check _ table :=
    match table.add ⟨under, "facts", if table.size = 1 then "one" else "other"⟩ (.text name) with
    | .ok table => { table, outcome }
    | .error fault => { table, outcome := .error fault }

theorem onlyAdds_tallyLayer (tree : Tree) (name under : String) (outcome : Except Fault Unit) :
    (tallyLayer name under outcome).OnlyAdds tree := by
  intro table
  simp only [tallyLayer]
  split
  next h => exact .add .refl h
  next => exact .refl

/-- A layer that fails after it took the place that a later layer is about to write. -/
def tallies : Closure where
  graph := (LayerGraph.empty.addEdge "alpha" "gamma").addEdge "beta" "delta"
  handles := .ofList [("alpha", tallyLayer "alpha" "alpha" (.ok ())),
    ("beta", tallyLayer "beta" "gamma" (.error ⟨.malformed "no", none, []⟩)),
    ("delta", tallyLayer "delta" "delta" (.ok ())), ("gamma", tallyLayer "gamma" "gamma" (.ok ()))]
  implicit := []

theorem run_tallies (tree : Tree) :
    (run false tree tallies .empty).toOption.map (fun (_, r) => (r.layersIn .success, r.order)) =
      some (["alpha", "gamma"], ["alpha", "beta", "gamma"]) := by
  cbv

theorem tallies_isolated :
    (∀ n layer, tallies.handles.get? n = some layer → layer.OnlyAdds (.node .program ⟨1, 1⟩ [])) ∧
      ∃ table r r', run false (.node .program ⟨1, 1⟩ []) tallies .empty = .ok (table, r) ∧
        r.order = ["alpha", "beta", "gamma"] ∧
        run false (.node .program ⟨1, 1⟩ []) (tallies.restrict ["alpha", "gamma"]) .empty = .ok (table, r') ∧
        Isolated (.node .program ⟨1, 1⟩ []) tallies .empty table r r' := by
  have adds (n layer) (hl : tallies.handles.get? n = some layer) :
      layer.OnlyAdds (.node .program ⟨1, 1⟩ []) := by
    simp only [tallies, NameMap.ofList, List.foldl, NameMap.get?_insert] at hl
    split_ifs at hl <;> cases hl <;> exact onlyAdds_tallyLayer _ _ _ _
  refine ⟨adds, ?_⟩
  have computed := run_tallies (.node .program ⟨1, 1⟩ [])
  cases hrun : run false (.node .program ⟨1, 1⟩ []) tallies .empty with
  | error e =>
    rw [hrun] at computed
    cases computed
  | ok result =>
    obtain ⟨table, r⟩ := result
    rw [hrun] at computed
    obtain ⟨hkept, horder⟩ := Prod.mk.inj (Option.some.inj computed)
    obtain ⟨r', hrun', h⟩ := exists_isolated_of_run adds hrun
    rw [hkept] at hrun'
    exact ⟨table, r, r', rfl, horder, hrun', h⟩

end Schedule

end LayerCheck
