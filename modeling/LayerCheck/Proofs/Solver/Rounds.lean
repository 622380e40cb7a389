import Mathlib
import LayerCheck.Proofs.Name.Set
import LayerCheck.Proofs.Solver.Infeasibility

/-! The rounds of an elimination. A round looks at nothing but the constraints that are left: it finds a
false one, finds no variable any more, or replaces the constraints on the cheapest variable by their
combinations. Where no coefficient is zero, a round takes a variable away and brings none back, so
the rounds end, and what they end with is the result of the elimination. -/
namespace LayerCheck

namespace Linear

/-- A form as the operations on forms make it: every name in it has a coefficient. -/
structure Tidy (e : Linear) : Prop extends Proper e where
  nonzero : ∀ p ∈ e.coefficients, p.2 ≠ 0

instance (e : Linear) : Decidable e.Tidy :=
  decidable_of_iff ((List.Pairwise (fun p q : String × Int => p.1 < q.1) e.coefficients) ∧
    (∀ p ∈ e.coefficients, fits128 p.2 = true) ∧ ∀ p ∈ e.coefficients, p.2 ≠ 0)
    ⟨fun h => ⟨⟨h.1, h.2.1⟩, h.2.2⟩, fun h => ⟨h.sorted, h.words, h.nonzero⟩⟩

variable {e e' r : Linear} {k : Int} {x : String}

theorem Proper.tidy_addScaled (he : e.Proper) (h : e.addScaled e' k = some r) : r.Tidy := by
  refine ⟨he.addScaled h, fun p hp => ?_⟩
  obtain ⟨m, -, rfl⟩ := addScaled_eq_some h
  simpa using (List.mem_filter.1 hp).2

theorem tidy_scale (h : e.scale k = some r) : r.Tidy := (proper_const 0).tidy_addScaled h

theorem Tidy.offset (he : e.Tidy) (h : e.offset k = some r) : r.Tidy := by
  refine ⟨he.toProper.offset h, ?_⟩
  rw [offset_eq_some h]
  exact he.nonzero

theorem tdiv_divisor_eq_zero {p : String × Int} (hp : p ∈ e.coefficients) :
    p.2.tdiv e.divisor = 0 ↔ p.2 = 0 := by
  constructor
  · intro h
    rw [← Int.mul_tdiv_cancel_of_dvd (divisor_dvd hp), h, Int.mul_zero]
  · intro h
    rw [h, Int.zero_tdiv]

theorem Tidy.tighten (he : e.Tidy) : e.tighten.Tidy := by
  refine ⟨he.toProper.tighten, ?_⟩
  unfold Linear.tighten
  split
  next =>
    intro p hp
    obtain ⟨q, hq, rfl⟩ := List.mem_map.1 hp
    exact fun h => he.nonzero q hq ((tdiv_divisor_eq_zero hq).1 h)
  next => exact he.nonzero

theorem coefficient_tighten_eq_zero : e.tighten.coefficient x = 0 ↔ e.coefficient x = 0 := by
  unfold Linear.tighten
  split
  next =>
    have hget := NameMap.get?_mapValues (fun _ (c : Int) => c.tdiv e.divisor) e.coefficients x
    simp only [coefficient, hget]
    cases hx : e.coefficients.get? x with
    | none => rfl
    | some c => exact tdiv_divisor_eq_zero (NameMap.mem_of_get? hx)
  next => rfl

/-- The names in a tidy form are the variables that count. -/
theorem Tidy.mem_keys (he : e.Tidy) : x ∈ e.coefficients.keys ↔ e.coefficient x ≠ 0 := by
  constructor
  · intro hx
    obtain ⟨p, hp, rfl⟩ := List.mem_map.1 hx
    rw [coefficient, he.sorted.get? hp]
    exact he.nonzero p hp
  · intro hx
    cases hget : e.coefficients.get? x with
    | none => exact absurd (by rw [coefficient, hget]; rfl) hx
    | some c => exact List.mem_map.2 ⟨(x, c), NameMap.mem_of_get? hget, rfl⟩

end Linear

namespace Elimination

open Linear

variable {es es' : List Linear} {e lower upper : Linear} {x y : String} {s : Stage} {r : Elimination}

/-! ### One round -/

/-- The constraints that have variables. -/
def mixed (es : List Linear) : List Linear := es.filter (not ∘ isConst)

/-- The variable that is eliminated next, if it comes to that. -/
def chosen? (es : List Linear) : Option String :=
  if (es.filter isConst).any (0 < ·.constant) then none
  else cheapest? (cost (mixed es)) (namesOf (mixed es))

inductive Round where
  | ended (result : Elimination)
  | next (stage : Stage) (rest : List Linear)

/-- A round that eliminates the cheapest of some variables. -/
def roundOver (candidates : List String) (es : List Linear) : Round :=
  if (es.filter isConst).any (0 < ·.constant) then .ended .infeasible
  else
    match cheapest? (cost (mixed es)) candidates with
    | none => .ended (.feasible [])
    | some x =>
      let mentioning := (mixed es).filter (·.coefficient x != 0)
      match combineAll x (uppers x mentioning) (lowers x mentioning)
          ((mixed es).filter (not ∘ (·.coefficient x != 0))) with
      | .error .refused => .ended .tooLarge
      | .error (.broken op) => .ended (.broken op)
      | .ok es' => if limit < es'.length then .ended .tooLarge else .next ⟨x, mentioning⟩ es'

/-- A round on some constraints, over the variables that stand in them. -/
def round (es : List Linear) : Round := roundOver (namesOf (mixed es)) es

/-- A result with the stages of earlier rounds. -/
def onto (stages : List Stage) : Elimination → Elimination
  | feasible later => feasible (later ++ stages)
  | r => r

/-- The rounds from some constraints end with a result. -/
inductive Ends : List Linear → Elimination → Prop
  | ended {es : List Linear} {r : Elimination} : round es = .ended r → Ends es r
  | next {es es' : List Linear} {s : Stage} {r : Elimination} : round es = .next s es' → Ends es' r →
      Ends es (r.onto [s])

/-- What a round does that eliminates a variable. -/
structure Eliminates (es : List Linear) (s : Stage) (es' : List Linear) : Prop where
  closed : ∀ e ∈ es, e.isConst = true → e.constant ≤ 0
  chosen : chosen? es = some s.name
  constraints : s.constraints = (mixed es).filter (·.coefficient s.name != 0)
  combined : combineAll s.name (uppers s.name s.constraints) (lowers s.name s.constraints)
    ((mixed es).filter (not ∘ (·.coefficient s.name != 0))) = .ok es'

theorem closed_of_not_any (h : ¬ (es.filter isConst).any (0 < ·.constant) = true) :
    ∀ e ∈ es, e.isConst = true → e.constant ≤ 0 := by
  intro e he hconst
  refine Int.not_lt.1 fun hpos => h (List.any_eq_true.2 ⟨e, List.mem_filter.2 ⟨he, hconst⟩, ?_⟩)
  exact decide_eq_true hpos

theorem round_eq_next (h : round es = .next s es') : Eliminates es s es' := by
  unfold round roundOver at h
  split at h
  next => cases h
  next hclosed =>
    split at h
    next => cases h
    next x hx =>
      simp only at h
      split at h
      next => cases h
      next => cases h
      next hall =>
        split at h
        next => cases h
        next =>
          cases h
          exact ⟨closed_of_not_any hclosed, (if_neg hclosed).trans hx, rfl, hall⟩

theorem mem_of_chosen? (h : chosen? es = some x) : x ∈ namesOf (mixed es) := by
  unfold chosen? at h
  split at h
  next => cases h
  next => exact mem_of_cheapest? h

theorem cheapest?_eq_none {cost : String → Nat} {xs : List String} (h : cheapest? cost xs = none) : xs = [] := by
  cases xs with
  | nil => rfl
  | cons x xs =>
    rw [cheapest?] at h
    split at h
    next => cases h
    next => split at h <;> cases h

theorem round_eq_feasible {stages : List Stage} (h : round es = .ended (.feasible stages)) :
    stages = [] ∧ (∀ e ∈ es, e.isConst = true → e.constant ≤ 0) ∧ namesOf (mixed es) = [] := by
  unfold round roundOver at h
  split at h
  next => cases h
  next hclosed =>
    split at h
    next hnone =>
      cases h
      exact ⟨rfl, closed_of_not_any hclosed, cheapest?_eq_none hnone⟩
    next =>
      simp only at h
      split at h
      next => cases h
      next => cases h
      next => split at h <;> cases h

/-! ### Variables -/

theorem mem_mixed : e ∈ mixed es ↔ e ∈ es ∧ e.isConst = false := by
  simp [mixed]

theorem mem_namesOf (ht : ∀ e ∈ es, e.Tidy) : x ∈ namesOf es ↔ ∃ e ∈ es, e.coefficient x ≠ 0 := by
  rw [namesOf, NameSet.mem_ofList, List.mem_flatMap]
  exact ⟨fun ⟨e, he, hx⟩ => ⟨e, he, (ht e he).mem_keys.1 hx⟩,
    fun ⟨e, he, hx⟩ => ⟨e, he, (ht e he).mem_keys.2 hx⟩⟩

theorem isConst_of_namesOf (h : namesOf (mixed es) = []) (he : e ∈ es) : e.isConst = true := by
  cases hconst : e.isConst with
  | true => rfl
  | false =>
    have hmem : e ∈ mixed es := mem_mixed.2 ⟨he, hconst⟩
    cases hc : e.coefficients with
    | nil => simp [isConst, hc] at hconst
    | cons p m =>
      have hname : p.1 ∈ namesOf (mixed es) := by
        rw [namesOf, NameSet.mem_ofList, List.mem_flatMap]
        exact ⟨e, hmem, by rw [hc]; exact List.mem_cons_self⟩
      rw [h] at hname
      cases hname

theorem tidy_combine (h : combine x lower upper = .ok e) : e.Tidy := by
  obtain ⟨scaled, sum, hscaled, hsum, rfl⟩ := combine_eq_ok h
  exact ((proper_scale hscaled).tidy_addScaled hsum).tighten

/-- A combination mentions what one of its parts mentions, except the variable that it eliminates. -/
theorem mentions_of_combine (hl : lower.Proper) (hu : upper.Proper) (h : combine x lower upper = .ok e)
    (hy : e.coefficient y ≠ 0) : y ≠ x ∧ (lower.coefficient y ≠ 0 ∨ upper.coefficient y ≠ 0) := by
  obtain ⟨scaled, sum, hscaled, hsum, rfl⟩ := combine_eq_ok h
  have hsum : sum.coefficient y = -lower.coefficient x * upper.coefficient y +
      upper.coefficient x * lower.coefficient y := by
    rw [coefficient_addScaled (proper_scale hscaled) hl hsum, coefficient_scale hu hscaled]
  rw [Ne, coefficient_tighten_eq_zero, hsum] at hy
  constructor
  · rintro rfl
    exact hy (by ring)
  · by_contra hnone
    obtain ⟨h₁, h₂⟩ := not_or.1 hnone
    rw [not_not.1 h₁, not_not.1 h₂] at hy
    exact hy (by ring)

theorem subset_combineAll {uppers lowers set set' : List Linear} (h : combineAll x uppers lowers set = .ok set')
    (he : e ∈ set) : e ∈ set' := by
  induction lowers generalizing set with
  | nil =>
    cases h
    exact he
  | cons lower lowers ih =>
    obtain ⟨new, -, h⟩ := bind_eq_ok.1 h
    refine ih h ?_
    split
    next => exact he
    next => exact mem_addToSet.2 (.inl he)

/-- A constraint is true for all values, is kept in the stage of a round, or is left without its variable. -/
theorem Eliminates.cases (h : Eliminates es s es') (he : e ∈ es) :
    (e.isConst = true ∧ e.constant ≤ 0) ∨ (e ∈ s.constraints ∧ e.coefficient s.name ≠ 0) ∨
      (e ∈ es' ∧ e.coefficient s.name = 0) := by
  cases hconst : e.isConst with
  | true => exact .inl ⟨rfl, h.closed e he hconst⟩
  | false =>
    have hmem := mem_mixed.2 ⟨he, hconst⟩
    by_cases hx : e.coefficient s.name = 0
    · exact .inr (.inr ⟨subset_combineAll h.combined (List.mem_filter.2 ⟨hmem, by simp [hx]⟩), hx⟩)
    · refine .inr (.inl ⟨?_, hx⟩)
      rw [h.constraints]
      exact List.mem_filter.2 ⟨hmem, by simp [hx]⟩

theorem Eliminates.mem_constraints (h : Eliminates es s es') (he : e ∈ s.constraints) : e ∈ es := by
  rw [h.constraints] at he
  exact (mem_mixed.1 (List.mem_filter.1 he).1).1

/-- What is left after a round: old constraints without the variable, and combinations. -/
theorem Eliminates.mem_rest (h : Eliminates es s es') (he : e ∈ es') :
    (e ∈ es ∧ e.coefficient s.name = 0) ∨ ∃ lower ∈ es, ∃ upper ∈ es, lower.coefficient s.name < 0 ∧
      0 < upper.coefficient s.name ∧ combine s.name lower upper = .ok e := by
  rcases mem_combineAll h.combined he with he | ⟨lower, hlower, upper, hupper, hc⟩
  · obtain ⟨hmem, hx⟩ := List.mem_filter.1 he
    exact .inl ⟨(mem_mixed.1 hmem).1, by simpa using hx⟩
  · obtain ⟨hl, hneg⟩ := mem_lowers.1 hlower
    obtain ⟨hu, hpos⟩ := mem_uppers.1 hupper
    exact .inr ⟨lower, h.mem_constraints hl, upper, h.mem_constraints hu, hneg, hpos, hc⟩

theorem Eliminates.tidy (h : Eliminates es s es') (ht : ∀ e ∈ es, e.Tidy) : ∀ e ∈ es', e.Tidy := by
  intro e he
  rcases h.mem_rest he with ⟨he, -⟩ | ⟨lower, -, upper, -, -, -, hc⟩
  · exact ht e he
  · exact tidy_combine hc

/-- The variables after a round are variables from before it, without the one that was eliminated. -/
theorem Eliminates.names (h : Eliminates es s es') (ht : ∀ e ∈ es, e.Tidy) (hy : y ∈ namesOf es') :
    y ∈ namesOf es ∧ y ≠ s.name := by
  obtain ⟨e, he, hmentions⟩ := (mem_namesOf (h.tidy ht)).1 hy
  rw [mem_namesOf ht]
  rcases h.mem_rest he with ⟨he, hx⟩ | ⟨lower, hl, upper, hu, -, -, hc⟩
  · refine ⟨⟨e, he, hmentions⟩, ?_⟩
    rintro rfl
    exact hmentions hx
  · obtain ⟨hne, hparts⟩ := mentions_of_combine (ht lower hl).toProper (ht upper hu).toProper hc hmentions
    exact ⟨hparts.elim (fun h => ⟨lower, hl, h⟩) fun h => ⟨upper, hu, h⟩, hne⟩

/-! ### All rounds -/

/-- What an elimination goes on to after a round. -/
def Round.resume (names : List String) (stages : List Stage) : Round → Elimination
  | .ended r => r.onto stages
  | .next s es => run (names.erase s.name) es (s :: stages)

theorem run_eq_resume (names : List String) (es : List Linear) (stages : List Stage) :
    run names es stages =
      (roundOver (names.filter fun x => (mixed es).any fun e => e.coefficient x != 0) es).resume names stages := by
  rw [run_eq]
  unfold roundOver mixed
  by_cases hfalse : (es.filter isConst).any (0 < ·.constant) = true
  · rw [if_pos hfalse, if_pos hfalse]
    rfl
  · rw [if_neg hfalse, if_neg hfalse]
    simp only
    generalize cheapest? _ _ = chosen
    cases chosen with
    | none => rfl
    | some x =>
      simp only
      generalize combineAll x _ _ _ = combined
      rcases combined with (_ | op) | es'
      · rfl
      · rfl
      · simp only
        split <;> rfl

theorem onto_onto (r : Elimination) (first second : List Stage) :
    (r.onto first).onto second = r.onto (first ++ second) := by
  cases r <;> simp [onto]

theorem onto_nil (r : Elimination) : r.onto [] = r := by
  cases r <;> simp [onto]

/-- Of names that cover the variables of some constraints, those are taken that stand in them. -/
theorem filter_eq_namesOf {names : List String} (hs : NameSet.Sorted names) (ht : ∀ e ∈ es, e.Tidy)
    (hcover : ∀ x ∈ namesOf es, x ∈ names) :
    (names.filter fun x => (mixed es).any fun e => e.coefficient x != 0) = namesOf (mixed es) := by
  refine List.Pairwise.eq_of_mem_iff (List.Pairwise.filter _ hs) (NameSet.sorted_ofList _) fun x => ?_
  have hmem : x ∈ namesOf (mixed es) ↔ ∃ e ∈ mixed es, e.coefficient x ≠ 0 :=
    mem_namesOf fun e he => ht e (mem_mixed.1 he).1
  rw [List.mem_filter]
  simp only [List.any_eq_true, bne_iff_ne]
  refine ⟨fun h => hmem.2 h.2, fun hx => ⟨hcover x ?_, hmem.1 hx⟩⟩
  obtain ⟨e, he, hx⟩ := hmem.1 hx
  exact (mem_namesOf ht).2 ⟨e, (mem_mixed.1 he).1, hx⟩

theorem Eliminates.name_mem (h : Eliminates es s es') (ht : ∀ e ∈ es, e.Tidy) : s.name ∈ namesOf es := by
  have hmem := mem_of_chosen? h.chosen
  obtain ⟨e, he, hx⟩ := (mem_namesOf fun e he => ht e (mem_mixed.1 he).1).1 hmem
  exact (mem_namesOf ht).2 ⟨e, (mem_mixed.1 he).1, hx⟩

theorem ends_run {names : List String} (hs : NameSet.Sorted names) (ht : ∀ e ∈ es, e.Tidy)
    (hcover : ∀ x ∈ namesOf es, x ∈ names) (stages : List Stage) :
    ∃ r, Ends es r ∧ run names es stages = r.onto stages := by
  -- a round takes one of the names
  induction hn : names.length using Nat.strongRecOn generalizing names es stages with
  | ind n ih =>
    have hrun : run names es stages = (round es).resume names stages := by
      rw [run_eq_resume, filter_eq_namesOf hs ht hcover, round]
    cases hround : round es with
    | ended r =>
      rw [hround] at hrun
      exact ⟨r, .ended hround, hrun⟩
    | next s es' =>
      rw [hround] at hrun
      have helim := round_eq_next hround
      have hmem : s.name ∈ names := hcover _ (helim.name_mem ht)
      have hshort : (names.erase s.name).length < n := by
        rw [List.length_erase_of_mem hmem]
        have := List.length_pos_of_mem hmem
        omega
      have hcover' : ∀ x ∈ namesOf es', x ∈ names.erase s.name := by
        intro x hx
        obtain ⟨hx, hne⟩ := helim.names ht hx
        exact (List.mem_erase_of_ne hne).2 (hcover x hx)
      obtain ⟨r, hends, hrest⟩ := ih _ hshort (List.Pairwise.erase _ hs) (helim.tidy ht) hcover' (s :: stages) rfl
      refine ⟨r.onto [s], .next hround hends, ?_⟩
      rw [hrun, Round.resume, hrest, onto_onto]
      rfl

/-- Where no coefficient is zero, the rounds end, and they end with the result of the elimination. -/
theorem ends_ofConstraints (ht : ∀ e ∈ es, e.Tidy) : Ends es (ofConstraints es) := by
  have hs : NameSet.Sorted (namesOf es) := NameSet.sorted_ofList _
  obtain ⟨r, hends, hrun⟩ := ends_run hs ht (fun x hx => hx) []
  rw [ofConstraints, hrun, onto_nil]
  exact hends

end Elimination

end LayerCheck
