import Mathlib
import LayerCheck.Proofs.Schedule.Strictness
import LayerCheck.Proofs.Term.Denotation

/-! When a report is one of success. A layer that does not succeed fails, lies on a cycle or stands behind a layer
that does, and the report lists an error for each of these. So the two ways to tell how a run went, by the states
of the layers and by the errors, agree, whether the run was strict or not. -/
namespace LayerCheck.Schedule

variable {tree : Tree} {c : Closure} {table table' : FactTable} {p q : Progress} {waiting : List String}
variable {n : String} {r : Report}

/-! ### Runs that get through -/

/-- Every layer that ran was found. -/
theorem found_of_advance (hp : ∀ n ∈ p.order, (c.handles.get? n).isSome = true)
    (h : advance false tree c waiting p = .ok q) : ∀ n ∈ q.order, (c.handles.get? n).isSome = true := by
  fun_induction Schedule.advance false tree c waiting p with
  | case1 => cases h; exact hp
  | case2 => cases h
  | case3 => cases h
  | case4 waiting p n hn layer hl p' hp' ih =>
    obtain ⟨p₁, hstep, horder, -⟩ := step_tolerant tree n layer p
    obtain rfl := Except.ok.inj (hp'.symm.trans hstep)
    refine ih (fun m hm => ?_) h
    rw [horder] at hm
    rcases List.mem_append.1 hm with hm | hm
    · exact hp m hm
    · rw [List.mem_singleton.1 hm, hl]
      rfl

/-- A strict run that gets through takes the steps of one that goes on. -/
theorem advance_tolerant (h : advance true tree c waiting p = .ok q) : advance false tree c waiting p = .ok q := by
  fun_induction Schedule.advance true tree c waiting p with
  | case1 waiting p hn =>
    rw [advance]
    split
    next => exact h
    next hn' => cases hn.symm.trans hn'
  | case2 => cases h
  | case3 => cases h
  | case4 waiting p n hn layer hl p' hp' ih =>
    rcases step_strict tree n layer p with ⟨p₁, hs, ht, -⟩ | ⟨fault, p₁, hs, -⟩
    · obtain rfl := Except.ok.inj (hp'.symm.trans hs)
      rw [advance]
      split
      next hn' => cases hn.symm.trans hn'
      next n' hn' =>
        obtain rfl := Option.some.inj (hn.symm.trans hn')
        simp only [hl, ht]
        exact ih h
    · cases hp'.symm.trans hs

theorem run_tolerant_of_strict (h : run true tree c table = .ok (table', r)) :
    run false tree c table = .ok (table', r) := by
  cases hc : c.graph.cycles with
  | cons layers rest =>
    rw [run_strict_of_cycle (by rw [hc]; rfl)] at h
    cases h
  | nil =>
    rw [run_eq_map_advance (.inr hc)] at h
    rw [run_eq_map_advance (.inl rfl)]
    cases hp : advance true tree c (waitingAtStart c.graph) (.start table) with
    | error e =>
      rw [hp] at h
      cases h
    | ok p =>
      rw [hp] at h
      rw [advance_tolerant hp]
      exact h

/-! ### States and errors -/

/-- Where nothing has failed and there is no cycle, every layer has succeeded when none is ready any more. -/
theorem History.succeeded_of_clean (h : History tree c table p waiting)
    (hfound : ∀ n ∈ p.order, (c.handles.get? n).isSome = true) (stuck : ∀ n, ¬ Ready tree c table p.order n)
    (hclean : p.failures = []) (hfree : ∀ n, ¬ c.graph.OnCycle n) (hn : n ∈ c.graph.nodes) : n ∈ p.succeeded := by
  revert hn
  refine LayerGraph.before_induction (hfree n) fun n _ ih hn => ?_
  have hdeps : ∀ d ∈ c.graph.dependencies n, Ended tree c table p.order d (.ok ()) := by
    intro d hd
    have hdn : c.graph.Before d n := .single (LayerGraph.mem_dependencies.1 hd)
    exact (h.succeeded d).1 (ih d hdn (hfree d) hdn.mem_left)
  by_cases ho : n ∈ p.order
  · obtain ⟨past, hpast, -⟩ := h.exists_past ho
    obtain ⟨layer, hl⟩ := Option.isSome_iff_exists.1 (hfound n ho)
    cases houtcome : (layer.check tree (replay tree c table past)).outcome with
    | ok _ => exact (h.succeeded n).2 ⟨past, layer, hpast, hl, houtcome⟩
    | error fault =>
      have hfailed := (h.failures n fault).2 ⟨past, layer, hpast, hl, houtcome⟩
      rw [hclean] at hfailed
      cases hfailed
  · exact absurd ⟨hn, ho, hdeps⟩ (stuck n)

theorem success_reportOf : (reportOf c p).success = true ↔
    ∀ n ∈ c.graph.nodes, (finalStates c p).get? n = some .success := by
  simp +contextual [Report.success, reportOf, finalStates, NameMap.get?_map_pair, LayerGraph.mem_layers]

theorem errors_reportOf : (reportOf c p).errors = [] ↔
    p.failures = [] ∧ c.graph.cycles = [] ∧ ∀ n ∈ c.graph.nodes, (finalStates c p).get? n ≠ some .blocked := by
  simp [Report.errors, Report.layersIn, reportOf, finalStates, NameMap.get?_map_pair, LayerGraph.mem_layers]

theorem History.success_iff (h : History tree c table p waiting)
    (hfound : ∀ n ∈ p.order, (c.handles.get? n).isSome = true) (stuck : ∀ n, ¬ Ready tree c table p.order n) :
    (reportOf c p).success = true ↔ (reportOf c p).errors = [] := by
  rw [success_reportOf, errors_reportOf, LayerGraph.cycles_eq_nil]
  constructor
  · intro hall
    have hsucceeded : ∀ n ∈ c.graph.nodes, n ∈ p.succeeded := fun n hn => h.get?_eq_success.1 (hall n hn)
    refine ⟨List.eq_nil_iff_forall_not_mem.2 fun e he => ?_, fun n hn => ?_, fun n hn hblocked => ?_⟩
    · have hended := (h.failures e.1 e.2).1 he
      exact h.not_failed_of_succeeded (hsucceeded _ (h.free_of_mem_order hended.mem).1) ⟨e.2, he⟩
    · exact h.free n ((h.succeeded n).1 (hsucceeded n hn.mem_left)).mem hn
    · cases (hall n hn).symm.trans hblocked
  · rintro ⟨hclean, hfree, -⟩ n hn
    exact h.get?_eq_success.2 (h.succeeded_of_clean hfound stuck hclean hfree hn)

/-- A report is one of success exactly when it lists no error. -/
theorem success_iff_of_run {strict : Bool} (h : run strict tree c table = .ok (table', r)) :
    r.success = true ↔ r.errors = [] := by
  have htolerant : run false tree c table = .ok (table', r) := by
    cases strict with
    | false => exact h
    | true => exact run_tolerant_of_strict h
  obtain ⟨p, hp, -, rfl⟩ := run_eq_ok htolerant
  obtain ⟨⟨rest, hrest⟩, stuck⟩ := History.start.of_advance hp
  exact hrest.success_iff (found_of_advance (List.forall_mem_nil _) hp) stuck

end LayerCheck.Schedule
