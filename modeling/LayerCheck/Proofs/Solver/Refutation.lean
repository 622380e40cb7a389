import Mathlib
import LayerCheck.Proofs.Solver.Cover
import LayerCheck.Proofs.Solver.Infeasibility
import LayerCheck.Proofs.Solver.Validity

/-! Refutation is sound. Values that falsify a query solve one of its cases, and a case that has a
solution is never closed, so a query all of whose cases are closed is not falsifiable. -/
namespace LayerCheck

namespace Refutation

variable {ρ : Valuation}

/-- Settings that have their values under `ρ`. -/
def Agrees (ρ : Valuation) (settings : NameMap Bool) : Prop :=
  ∀ x b, settings.get? x = some b → ρ x = some (.bool b)

theorem Agrees.insert {settings : NameMap Bool} (hs : Agrees ρ settings) {x : String} {b : Bool}
    (hx : ρ x = some (.bool b)) : Agrees ρ (NameMap.insert x b settings) := by
  intro y c hy
  rw [NameMap.get?_insert] at hy
  split at hy
  next h =>
    cases hy
    rw [h, hx]
  next => exact hs y c hy

/-- The settings of a case that holds do not contradict each other, and its constraints are solved. -/
theorem sort_of_holds {c : List Atom} (hc : ∀ a ∈ c, a.Holds ρ) {settings : NameMap Bool}
    (hs : Agrees ρ settings) {es : List Linear} (he : ∀ e ∈ es, e.Proper ∧ e.value ρ.ints ≤ 0)
    {r : Option (NameMap Bool × List Linear)} (h : sort c settings es = .ok r) :
    ∃ settings' es', r = some (settings', es') ∧ ∀ e ∈ es', e.Proper ∧ e.value ρ.ints ≤ 0 := by
  fun_induction sort c settings es with
  | case1 settings es =>
    cases h
    exact ⟨settings, es, rfl, he⟩
  | case2 e rest settings es ih =>
    obtain ⟨⟨hproper, hvalue⟩, hrest⟩ := List.forall_mem_cons.1 hc
    obtain ⟨e', htighten, h⟩ := bind_eq_ok.1 h
    obtain rfl := Linear.tighten!_eq_ok htighten
    refine ih _ hrest hs (List.forall_mem_cons.2 ⟨⟨hproper.tighten, ?_⟩, he⟩) h
    exact Linear.value_tighten_nonpos_iff.2 hvalue
  | case3 x rest settings es known hx ih => exact ih (List.forall_mem_cons.1 hc).2 hs he h
  | case4 x b rest settings es known hx hne =>
    -- the setting that is known and the one that is asked for are both the value of `x`
    have hb : ρ x = some (.bool b) := (List.forall_mem_cons.1 hc).1
    rw [hs x known hx] at hb
    cases hb
    exact absurd rfl hne
  | case5 x b rest settings es hx ih =>
    obtain ⟨hb, hrest⟩ := List.forall_mem_cons.1 hc
    exact ih hrest (hs.insert hb) he h

theorem tryCase_ne_closed {c : List Atom} (hc : ∀ a ∈ c, a.Holds ρ) : tryCase c ≠ .closed := by
  have hagrees : Agrees ρ [] := fun x b h => by cases h
  have hnil : ∀ e ∈ ([] : List Linear), e.Proper ∧ e.value ρ.ints ≤ 0 := fun e h => by cases h
  unfold tryCase
  split
  next => simp
  next hsort =>
    obtain ⟨settings, es, h, -⟩ := sort_of_holds hc hagrees hnil hsort
    cases h
  next settings es hsort =>
    obtain ⟨_, _, h, hes⟩ := sort_of_holds hc hagrees hnil hsort
    cases h
    split
    next hinfeasible =>
      have hset : ∀ e ∈ Linear.toSet es, e.Proper ∧ e.value ρ.ints ≤ 0 := fun e he =>
        hes e (Linear.mem_toSet.1 he)
      exact absurd (fun e he => (hset e he).2)
        (Elimination.not_solves_of_infeasible (fun e he => (hset e he).1) hinfeasible)
    next => simp
    next => simp
    next => split <;> simp

theorem closed_of_unsatisfiable {outcomes : List Outcome} (h : ofOutcomes outcomes = .unsatisfiable) :
    ∀ o ∈ outcomes, o = .closed := by
  intro o ho
  unfold ofOutcomes at h
  split at h
  next => cases h
  next hbroken =>
    have hnone : outcomes.filterMap Outcome.doubt? = [] := by
      simp only at h
      split at h
      next hdoubts => exact hdoubts
      next => cases h
      next => cases h
    have hdoubt := List.filterMap_eq_nil_iff.1 hnone o ho
    have hbroken := List.findSome?_eq_none_iff.1 hbroken o ho
    cases o with
    | closed => rfl
    | candidate | doubtful => cases hdoubt
    | broken => cases hbroken

theorem cover_premiseCases {flags : List String} (hf : ρ.Flags flags) {ps : List Term} {cs cs' : Cases}
    (h : premiseCases flags ps cs = some cs') (hc : Cases.Cover ρ cs) (hp : ∀ p ∈ ps, p.Holds ρ) :
    Cases.Cover ρ cs' := by
  induction ps generalizing cs with
  | nil =>
    cases h
    exact hc
  | cons p ps ih =>
    obtain ⟨hholds, hrest⟩ := List.forall_mem_cons.1 hp
    obtain ⟨new, hnew, h⟩ := Option.bind_eq_some_iff.1 h
    obtain ⟨joined, hjoined, h⟩ := Option.bind_eq_some_iff.1 h
    exact ih h (Cases.cover_both hjoined hc (Cases.cover_ofTerm? hf hnew hholds)) hrest

/-- The names that are read as truth values are those of the boolean bindings. -/
theorem contains_flags_iff {bs : List Binding} (hn : (Query.names bs).Nodup) (x : String) :
    ((bs.filter (·.base == .bool)).map (·.name)).contains x = true ↔ Query.bases bs x = some .bool := by
  rw [List.contains_iff_mem, List.mem_map]
  constructor
  · rintro ⟨b, hb, rfl⟩
    obtain ⟨hmem, hbase⟩ := List.mem_filter.1 hb
    rw [Query.bases_of_mem hn hmem, eq_of_beq hbase]
  · intro hx
    exact ⟨⟨x, .bool⟩, List.mem_filter.2 ⟨Query.mem_of_bases hx, rfl⟩, rfl⟩

theorem flags_of_exactly {bs : List Binding} (hn : (Query.names bs).Nodup)
    (hρ : Query.Exactly ρ (Query.bases bs)) : ρ.Flags ((bs.filter (·.base == .bool)).map (·.name)) := by
  intro x
  rw [contains_flags_iff hn, ← hρ x, Option.map_eq_some_iff]
  constructor
  · rintro ⟨v, hv, hb⟩
    cases v with
    | int n => cases hb
    | bool b => exact ⟨b, hv⟩
  · rintro ⟨b, hb⟩
    exact ⟨_, hb, rfl⟩

theorem not_falsifiable_of_unsatisfiable {q : Query} (hn : (Query.names q.bindings).Nodup)
    (h : ofQuery q = .unsatisfiable) : ¬ q.Falsifiable := by
  rintro ⟨ρ, hρ, hp, hc⟩
  have hf := flags_of_exactly hn hρ
  unfold ofQuery at h
  simp only at h
  split at h
  next => cases h
  next premises hpremises =>
    split at h
    next => cases h
    next cases hcases =>
      obtain ⟨negated, hnegated, hboth⟩ := Option.bind_eq_some_iff.1 hcases
      obtain ⟨c, hmem, hholds⟩ := Cases.cover_both hboth
        (cover_premiseCases hf hpremises Cases.cover_always hp) (Cases.cover_ofTerm? hf hnegated hc)
      exact tryCase_ne_closed hholds (closed_of_unsatisfiable h _ (List.mem_map.2 ⟨c, hmem, rfl⟩))

end Refutation

end LayerCheck
