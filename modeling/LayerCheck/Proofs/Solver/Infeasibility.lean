import Mathlib
import LayerCheck.Proofs.Solver.LinearForm
import LayerCheck.Solver.Refutation

/-! Elimination of variables loses no solution. A lower and an upper bound of a variable together give a
constraint that every solution of the two satisfies, so constraints that end in a false one have no
solution. -/
namespace LayerCheck

namespace Stop

theorem orRefused_eq_ok {α : Type} {o : Option α} {a : α} : Stop.orRefused o = .ok a ↔ o = some a := by
  cases o <;> simp [Stop.orRefused]

theorem orBroken_eq_ok {α : Type} {r : Except WordOp α} {a : α} : Stop.orBroken r = .ok a ↔ r = .ok a :=
  mapError_eq_ok

end Stop

namespace Linear

/-- Values that satisfy all of some constraints. -/
def Solves (ρ : String → Int) (es : List Linear) : Prop := ∀ e ∈ es, e.value ρ ≤ 0

end Linear

namespace Elimination

open Linear Stop

variable {ρ : String → Int} {x : String} {lower upper e : Linear}

theorem combine_eq_ok (h : combine x lower upper = .ok e) :
    ∃ scaled sum, upper.scale (-lower.coefficient x) = some scaled ∧
      scaled.addScaled lower (upper.coefficient x) = some sum ∧ e = sum.tighten := by
  obtain ⟨factor, hfactor, h⟩ := bind_eq_ok.1 h
  obtain ⟨scaled, hscaled, h⟩ := bind_eq_ok.1 h
  obtain ⟨sum, hsum, h⟩ := bind_eq_ok.1 h
  have hfactor : factor = -lower.coefficient x := (WordOp.run_eq_ok.1 (orBroken_eq_ok.1 hfactor)).2
  rw [hfactor] at hscaled
  exact ⟨scaled, sum, orRefused_eq_ok.1 hscaled, orRefused_eq_ok.1 hsum, tighten!_eq_ok (orBroken_eq_ok.1 h)⟩

theorem proper_combine (h : combine x lower upper = .ok e) : e.Proper := by
  obtain ⟨scaled, sum, hscaled, hsum, rfl⟩ := combine_eq_ok h
  exact ((proper_scale hscaled).addScaled hsum).tighten

theorem combine_nonpos (hneg : lower.coefficient x < 0) (hpos : 0 < upper.coefficient x)
    (h : combine x lower upper = .ok e) (hlower : lower.value ρ ≤ 0) (hupper : upper.value ρ ≤ 0) :
    e.value ρ ≤ 0 := by
  obtain ⟨scaled, sum, hscaled, hsum, rfl⟩ := combine_eq_ok h
  rw [value_tighten_nonpos_iff, value_addScaled (proper_scale hscaled) hsum, value_scale hscaled]
  -- both products are of a positive factor and a value that is at most zero
  have h₁ : -lower.coefficient x * upper.value ρ ≤ 0 :=
    mul_nonpos_of_nonneg_of_nonpos (by linarith) hupper
  have h₂ : upper.coefficient x * lower.value ρ ≤ 0 := mul_nonpos_of_nonneg_of_nonpos hpos.le hlower
  linarith

/-- Each constraint that elimination adds is a combination of a lower and an upper bound. -/
theorem mem_combineAll {uppers lowers set set' : List Linear} (h : combineAll x uppers lowers set = .ok set')
    (he : e ∈ set') :
    e ∈ set ∨ ∃ lower ∈ lowers, ∃ upper ∈ uppers, combine x lower upper = .ok e := by
  induction lowers generalizing set with
  | nil =>
    cases h
    exact .inl he
  | cons lower lowers ih =>
    obtain ⟨new, hnew, h⟩ := bind_eq_ok.1 h
    rcases ih h with hmem | ⟨lower', hlower', hrest⟩
    · split at hmem
      next => exact .inl hmem
      next =>
        rcases mem_addToSet.1 hmem with hset | hadded
        · exact .inl hset
        · obtain ⟨upper, hupper, hcombine⟩ := exists_of_mem_mapM hnew hadded
          exact .inr ⟨lower, List.mem_cons_self, upper, hupper, hcombine⟩
    · exact .inr ⟨lower', List.mem_cons_of_mem _ hlower', hrest⟩

theorem mem_lowers {es : List Linear} : e ∈ lowers x es ↔ e ∈ es ∧ e.coefficient x < 0 := by
  simp [lowers]

theorem mem_uppers {es : List Linear} : e ∈ uppers x es ↔ e ∈ es ∧ 0 < e.coefficient x := by
  simp [uppers]

/-- One round: the constraints that mention a variable give way to their combinations. -/
theorem round_sound {es mentioning rest es' : List Linear} (hp : ∀ e ∈ es, e.Proper)
    (hm : ∀ e ∈ mentioning, e ∈ es) (hr : ∀ e ∈ rest, e ∈ es)
    (h : combineAll x (uppers x mentioning) (lowers x mentioning) rest = .ok es') :
    (∀ e ∈ es', e.Proper) ∧ (Solves ρ es → Solves ρ es') := by
  constructor
  · intro e he
    rcases mem_combineAll h he with he | ⟨lower, -, upper, -, hc⟩
    · exact hp e (hr e he)
    · exact proper_combine hc
  · intro hρ e he
    rcases mem_combineAll h he with he | ⟨lower, hlower, upper, hupper, hc⟩
    · exact hρ e (hr e he)
    · obtain ⟨hl, hneg⟩ := mem_lowers.1 hlower
      obtain ⟨hu, hpos⟩ := mem_uppers.1 hupper
      exact combine_nonpos hneg hpos hc (hρ lower (hm lower hl)) (hρ upper (hm upper hu))

/-- One round of a run, with the constraints sorted by filters. -/
theorem run_eq (names : List String) (es : List Linear) (stages : List Stage) :
    run names es stages =
      if (es.filter isConst).any (0 < ·.constant) then .infeasible
      else
        let mixed := es.filter (not ∘ isConst)
        match cheapest? (cost mixed) (names.filter fun x => mixed.any fun e => e.coefficient x != 0) with
        | none => .feasible stages
        | some x =>
          let mentioning := mixed.filter (·.coefficient x != 0)
          match combineAll x (uppers x mentioning) (lowers x mentioning)
              (mixed.filter (not ∘ (·.coefficient x != 0))) with
          | .error .refused => .tooLarge
          | .error (.broken op) => .broken op
          | .ok es' =>
            if limit < es'.length then .tooLarge else run (names.erase x) es' (⟨x, mentioning⟩ :: stages) := by
  rw [run]
  simp only [List.partition_eq_filter_filter]
  split
  next => rfl
  next =>
    split
    next h =>
      simp only [List.partition_eq_filter_filter] at h
      rw [h]
    next x h =>
      simp only [List.partition_eq_filter_filter] at h
      rewrite [h]
      split <;> simp only [*]

theorem not_solves_of_run {names : List String} {es : List Linear} {stages : List Stage}
    (hp : ∀ e ∈ es, e.Proper) (h : run names es stages = .infeasible) : ¬ Solves ρ es := by
  induction hn : names.length using Nat.strongRecOn generalizing names es stages with
  | ind n ih =>
    intro hρ
    rw [run_eq] at h
    split at h
    next hfalse =>
      obtain ⟨e, he, hpos⟩ := List.any_eq_true.1 hfalse
      obtain ⟨hmem, hconst⟩ := List.mem_filter.1 he
      have hvalue := hρ e hmem
      rw [value_of_isConst hconst] at hvalue
      exact absurd hvalue (Int.not_le.2 (of_decide_eq_true hpos))
    next =>
      simp only at h
      split at h
      next => cases h
      next x hx =>
        split at h
        next => cases h
        next => cases h
        next es' hall =>
          split at h
          next => cases h
          next =>
            have hmem : x ∈ names := (List.mem_filter.1 (mem_of_cheapest? hx)).1
            have hshort : (names.erase x).length < n := by
              rw [List.length_erase_of_mem hmem]
              have := List.length_pos_of_mem hmem
              omega
            obtain ⟨hproper, hsolves⟩ := round_sound (ρ := ρ) hp
              (fun e he => (List.mem_filter.1 (List.mem_filter.1 he).1).1)
              (fun e he => (List.mem_filter.1 (List.mem_filter.1 he).1).1) hall
            exact ih _ hshort hproper h rfl (hsolves hρ)

theorem not_solves_of_infeasible {es : List Linear} (hp : ∀ e ∈ es, e.Proper)
    (h : ofConstraints es = .infeasible) : ¬ Solves ρ es :=
  not_solves_of_run hp h

end Elimination

end LayerCheck
