import Mathlib
import LayerCheck.Proofs.Schedule.FinalStates

/-! A strict run and one that goes on past cycles and failures tell the same. Up to the first failure the two do
the same steps, so what a strict run ends with can be read off what the other reports: its first cycle, else its
first failure, else all of it. -/
namespace LayerCheck.Schedule

variable {tree : Tree} {c : Closure} {table : FactTable} {p q : Progress} {waiting : List String} {n : String}

/-! ### Up to the first failure -/

/-- What a strict run makes of the progress of one that goes on: an error, if anything has failed. -/
def Progress.raise (p : Progress) : Except Abort Progress :=
  match p.failures with
  | [] => .ok p
  | (n, fault) :: _ => .error (.layerFailure n fault)

theorem Progress.raise_of_nil (h : p.failures = []) : p.raise = .ok p := by
  rw [raise, h]

theorem Progress.raise_of_cons {fault : Fault} {rest : List (String × Fault)}
    (h : p.failures = (n, fault) :: rest) : p.raise = .error (.layerFailure n fault) := by
  rw [raise, h]

/-- The turn of a layer in both kinds of run: it differs only where the check fails. -/
theorem step_strict (tree : Tree) (n : String) (layer : Layer) (p : Progress) :
    (∃ p', step true tree n layer p = .ok p' ∧ step false tree n layer p = .ok p' ∧ p'.failures = p.failures) ∨
      ∃ fault p', step true tree n layer p = .error (.layerFailure n fault) ∧
        step false tree n layer p = .ok p' ∧ p'.failures = p.failures ++ [(n, fault)] := by
  cases h : (layer.check tree p.table).outcome with
  | ok _ =>
    simp only [step, turn, h]
    exact .inl ⟨_, rfl, rfl, rfl⟩
  | error fault =>
    simp only [step, turn, h]
    exact .inr ⟨fault, _, rfl, rfl, rfl⟩

/-- Failures are kept in the order in which they happen. -/
theorem failures_advance (h : advance false tree c waiting p = .ok q) : p.failures <+: q.failures := by
  fun_induction Schedule.advance false tree c waiting p with
  | case1 => cases h; exact List.prefix_rfl
  | case2 => cases h
  | case3 => cases h
  | case4 waiting p n hn layer hl p' hp' ih =>
    refine List.IsPrefix.trans ?_ (ih h)
    rcases step_strict tree n layer p with ⟨p₁, -, hp₁, hf⟩ | ⟨fault, p₁, -, hp₁, hf⟩
    · obtain rfl := Except.ok.inj (hp'.symm.trans hp₁)
      rw [hf]
    · obtain rfl := Except.ok.inj (hp'.symm.trans hp₁)
      exact hf ▸ List.prefix_append _ _

theorem advance_strict (hp : p.failures = []) (h : advance false tree c waiting p = .ok q) :
    advance true tree c waiting p = q.raise := by
  fun_induction Schedule.advance false tree c waiting p with
  | case1 waiting p hn =>
    cases h
    rw [advance]
    split
    next => exact (Progress.raise_of_nil hp).symm
    next hn' => cases hn.symm.trans hn'
  | case2 => cases h
  | case3 => cases h
  | case4 waiting p n hn layer hl p' hp' ih =>
    rw [advance]
    split
    next hn' => cases hn.symm.trans hn'
    next n' hn' =>
      obtain rfl := Option.some.inj (hn.symm.trans hn')
      rcases step_strict tree n layer p with ⟨p₁, hs, hp₁, hf⟩ | ⟨fault, p₁, hs, hp₁, hf⟩
      · obtain rfl := Except.ok.inj (hp'.symm.trans hp₁)
        simp only [hl, hs]
        exact ih (hf.trans hp) h
      · obtain rfl := Except.ok.inj (hp'.symm.trans hp₁)
        simp only [hl, hs]
        -- the run that goes on never loses its first failure
        obtain ⟨rest, hrest⟩ := failures_advance h
        rw [hf, hp, List.nil_append, List.singleton_append] at hrest
        exact (Progress.raise_of_cons hrest.symm).symm

/-! ### Whole runs -/

/-- What a strict run ends with: the first cycle, else the first failure, else the facts and the whole report. -/
def strictly (table : FactTable) (r : Report) : Except Abort (FactTable × Report) :=
  match r.cycles, r.failures with
  | layers :: _, _ => .error (.cycle layers)
  | [], (n, fault) :: _ => .error (.layerFailure n fault)
  | [], [] => .ok (table, r)

theorem run_strict (hp : advance false tree c (waitingAtStart c.graph) (.start table) = .ok p) :
    run true tree c table = strictly p.table (reportOf c p) := by
  cases h : c.graph.cycles with
  | cons layers rest =>
    rw [run_strict_of_cycle (by rw [h]; rfl), strictly, reportOf, h]
  | nil =>
    rw [run_eq_map_advance (.inr h), advance_strict rfl hp]
    cases hf : p.failures with
    | nil =>
      rw [Progress.raise_of_nil hf]
      simp only [strictly, Except.map, reportOf, h, hf]
    | cons first rest =>
      rw [Progress.raise_of_cons hf]
      simp only [strictly, Except.map, reportOf, h, hf]

/-- The ways in which a strict run can end, given the facts and the report of a run that goes on. -/
structure Mirrors (tree : Tree) (c : Closure) (table table' : FactTable) (r : Report) : Prop where
  cyclic : (∃ layers, run true tree c table = .error (.cycle layers)) ↔ ∃ n, c.graph.OnCycle n
  cycle : ∀ layers, run true tree c table = .error (.cycle layers) ↔ c.graph.cycles.head? = some layers
  /-- A cycle ends the run before any check: it ends so whatever the checks do and are given. -/
  unchecked : (∃ n, c.graph.OnCycle n) → ∀ tree' handles table'',
    run true tree' { c with handles } table'' = run true tree c table
  failed : (∀ n, ¬ c.graph.OnCycle n) →
    ((∃ n fault, run true tree c table = .error (.layerFailure n fault)) ↔ r.failures ≠ [])
  failure : (∀ n, ¬ c.graph.OnCycle n) → ∀ n fault,
    run true tree c table = .error (.layerFailure n fault) ↔ r.failures.head? = some (n, fault)
  passed : (∀ n, ¬ c.graph.OnCycle n) → r.failures = [] → run true tree c table = .ok (table', r)

theorem mirrors_of_run_strict {table' : FactTable} {r : Report} (hr : r.cycles = c.graph.cycles)
    (h : run true tree c table = strictly table' r) : Mirrors tree c table table' r := by
  have hfree : c.graph.cycles = [] ↔ ∀ n, ¬ c.graph.OnCycle n := LayerGraph.cycles_eq_nil
  cases hc : c.graph.cycles with
  | cons layers rest =>
    have hstrict : run true tree c table = .error (.cycle layers) := by rw [h, strictly, hr, hc]
    have hcyclic : ∃ n, c.graph.OnCycle n := by
      by_contra hnone
      rw [hfree.2 (not_exists.1 hnone)] at hc
      cases hc
    refine ⟨iff_of_true ⟨layers, hstrict⟩ hcyclic, fun layers' => ?_, fun _ tree' handles table'' => ?_,
      fun hnone => absurd hcyclic (not_exists.2 hnone), fun hnone => absurd hcyclic (not_exists.2 hnone),
      fun hnone => absurd hcyclic (not_exists.2 hnone)⟩
    · simp [hstrict, hc]
    · rw [hstrict]
      exact run_strict_of_cycle (c := { c with handles }) (by rw [hc]; rfl)
  | nil =>
    have hnone : ¬ ∃ n, c.graph.OnCycle n := not_exists.2 (hfree.1 hc)
    cases hf : r.failures with
    | nil =>
      have hstrict : run true tree c table = .ok (table', r) := by rw [h, strictly, hr, hc, hf]
      exact ⟨by simp [hstrict, hnone], by simp [hstrict, hc], fun hn => absurd hn hnone,
        by simp [hstrict, hf], by simp [hstrict, hf], fun _ _ => hstrict⟩
    | cons first rest =>
      obtain ⟨m, fault⟩ := first
      have hstrict : run true tree c table = .error (.layerFailure m fault) := by rw [h, strictly, hr, hc, hf]
      exact ⟨by simp [hstrict, hnone], by simp [hstrict, hc], fun hn => absurd hn hnone,
        by simp [hstrict, hf], by simp [hstrict, hf], fun _ hn => by simp [hf] at hn⟩

/-- A strict run over layers that can all be found ends at the first cycle, else with the first failure that a run
that goes on reports, else with the same facts and the same report. -/
theorem exists_mirrors_of_tolerant (tree : Tree) (c : Closure) (table : FactTable) (covered : c.Covered) :
    ∃ table' r, run false tree c table = .ok (table', r) ∧ Mirrors tree c table table' r := by
  obtain ⟨p, rest, hp, -⟩ := History.start.advance covered
  exact ⟨_, _, run_tolerant hp, mirrors_of_run_strict rfl (run_strict hp)⟩

/-- Two layers that fail one after the other, the second once a third has passed. -/
def twoFailures : Closure where
  graph := (LayerGraph.empty.addEdge "base" "usage").addLayer "shape"
  handles := .ofList [("base", constantLayer "base" (.ok ())),
    ("shape", constantLayer "shape" (.error ⟨.malformed "no shape", none, []⟩)),
    ("usage", constantLayer "usage" (.error ⟨.malformed "no use", none, []⟩))]
  implicit := []

theorem run_twoFailures (tree : Tree) :
    (run false tree twoFailures .empty).toOption.map (fun (_, r) => (r.order, r.failures.map (·.1))) =
      some (["base", "shape", "usage"], ["shape", "usage"]) := by
  cbv

theorem twoFailures_mirrors :
    twoFailures.Covered ∧
      ∃ table r fault, run false (.node .program ⟨1, 1⟩ []) twoFailures .empty = .ok (table, r) ∧
        r.order = ["base", "shape", "usage"] ∧ r.failures.map (·.1) = ["shape", "usage"] ∧
        Mirrors (.node .program ⟨1, 1⟩ []) twoFailures .empty table r ∧
        run true (.node .program ⟨1, 1⟩ []) twoFailures .empty = .error (.layerFailure "shape" fault) := by
  have covered : twoFailures.Covered := by decide
  have free : ∀ n, ¬ twoFailures.graph.OnCycle n := LayerGraph.cycles_eq_nil.1 (by cbv)
  obtain ⟨table, r, hr, hm⟩ :=
    exists_mirrors_of_tolerant (.node .program ⟨1, 1⟩ []) twoFailures .empty covered
  have computed := run_twoFailures (.node .program ⟨1, 1⟩ [])
  rw [hr] at computed
  obtain ⟨horder, hfailures⟩ := Prod.mk.inj (Option.some.inj computed)
  obtain ⟨⟨n, fault⟩, rest, hfirst, rfl, -⟩ := List.map_eq_cons_iff.1 hfailures
  exact ⟨covered, table, r, fault, hr, horder, hfailures, hm, (hm.failure free _ fault).2 (by rw [hfirst]; rfl)⟩

end LayerCheck.Schedule
