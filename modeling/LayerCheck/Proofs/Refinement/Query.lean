import Mathlib
import LayerCheck.Proofs.Name.Set
import LayerCheck.Proofs.Solver.Validity
import LayerCheck.Refinement.Scope

/-! Queries about a scope. What matters to a conclusion is closed under the assumptions that it touches,
so values under which everything known in the scope is true are values of the bindings of the query
under which its premises are true: if the query is valid, the conclusion is true as well. -/
namespace LayerCheck

theorem Term.sorted_freeVars (t : Term) : NameSet.Sorted t.freeVars := by
  induction t with
  | var x => exact List.pairwise_singleton _ _
  | int n => exact List.Pairwise.nil
  | bool b => exact List.Pairwise.nil
  | unary op t ih => exact ih
  | binary op l r ihl _ => exact ihl.union _

namespace Scope

/-! ### What matters -/

theorem subset_relevantFrom (known : List Assumption) (relevant : NameSet) :
    ∀ x ∈ relevant, x ∈ relevantFrom known relevant := by
  fun_induction relevantFrom known relevant with
  | case1 known relevant h => exact fun x hx => hx
  | case2 known relevant h ih => exact fun x hx => ih x (NameSet.mem_union.2 (.inr hx))

theorem sorted_relevantFrom {known : List Assumption} {relevant : NameSet} (hs : NameSet.Sorted relevant) :
    NameSet.Sorted (relevantFrom known relevant) := by
  fun_induction relevantFrom known relevant with
  | case1 known relevant h => exact hs
  | case2 known relevant h ih => exact ih (hs.union _)

/-- An assumption that touches what matters is about nothing else. -/
theorem names_subset_relevantFrom {known : List Assumption} {relevant : NameSet} {a : Assumption}
    (ha : a ∈ known) (ht : a.touches (relevantFrom known relevant) = true) :
    ∀ x ∈ a.names, x ∈ relevantFrom known relevant := by
  fun_induction relevantFrom known relevant with
  | case1 known relevant h =>
    have hmem : a ∈ touched relevant known := List.mem_filter.2 ⟨ha, ht⟩
    rw [h] at hmem
    cases hmem
  | case2 known relevant h ih =>
    intro x hx
    by_cases hnow : a.touches relevant = true
    · refine subset_relevantFrom _ _ x (NameSet.mem_union.2 (.inl ?_))
      exact List.mem_flatMap.2 ⟨a, List.mem_filter.2 ⟨ha, hnow⟩, hx⟩
    · exact ih (List.mem_filter.2 ⟨ha, by simpa using hnow⟩) ht x hx

/-- Nothing matters but the names asked for and those of assumptions. -/
theorem mem_relevantFrom {known : List Assumption} {relevant : NameSet} {x : String}
    (hx : x ∈ relevantFrom known relevant) : x ∈ relevant ∨ ∃ a ∈ known, x ∈ a.names := by
  fun_induction relevantFrom known relevant with
  | case1 known relevant h => exact .inl hx
  | case2 known relevant h ih =>
    rcases ih hx with hx | ⟨a, ha, hx⟩
    · rcases NameSet.mem_union.1 hx with hx | hx
      · obtain ⟨a, ha, hx⟩ := List.mem_flatMap.1 hx
        exact .inr ⟨a, (List.mem_filter.1 ha).1, hx⟩
      · exact .inl hx
    · exact .inr ⟨a, (List.mem_filter.1 ha).1, hx⟩

theorem mem_names {a : Assumption} {x : String} (h : x ∈ a.names) : a.subject = some x ∨ x ∈ a.fact.freeVars := by
  unfold Assumption.names at h
  split at h
  next y hy => exact (NameSet.mem_insert.1 h).imp_left fun heq => hy.trans (congrArg some heq.symm)
  next => exact .inr h

theorem freeVars_subset_names {a : Assumption} {x : String} (h : x ∈ a.fact.freeVars) : x ∈ a.names := by
  unfold Assumption.names
  split
  next => exact NameSet.mem_insert.2 (.inr h)
  next => exact h

/-! ### Bindings -/

variable {s : Scope}

theorem exists_bindings {xs : List String} (h : ∀ x ∈ xs, (s.baseOf? x).isSome) : ∃ bs, s.bindings xs = .ok bs := by
  induction xs with
  | nil => exact ⟨[], rfl⟩
  | cons x xs ih =>
    obtain ⟨base, hbase⟩ := Option.isSome_iff_exists.1 (h x List.mem_cons_self)
    obtain ⟨bs, hbs⟩ := ih fun y hy => h y (List.mem_cons_of_mem _ hy)
    refine ⟨⟨x, base⟩ :: bs, ?_⟩
    rw [bindings, hbase, hbs]
    rfl

theorem names_bindings {xs : List String} {bs : List Binding} (h : s.bindings xs = .ok bs) :
    Query.names bs = xs := by
  induction xs generalizing bs with
  | nil =>
    cases h
    rfl
  | cons x xs ih =>
    rw [bindings] at h
    split at h
    next => cases h
    next base hx =>
      obtain ⟨rest, hrest, h⟩ := bind_eq_ok.1 h
      cases h
      rw [Query.names, List.map_cons, ← ih hrest]
      rfl

theorem baseOf?_of_mem_bindings {xs : List String} {bs : List Binding} (h : s.bindings xs = .ok bs)
    {b : Binding} (hb : b ∈ bs) : s.baseOf? b.name = some b.base := by
  induction xs generalizing bs with
  | nil =>
    cases h
    cases hb
  | cons x xs ih =>
    rw [bindings] at h
    split at h
    next => cases h
    next base hx =>
      obtain ⟨rest, hrest, h⟩ := bind_eq_ok.1 h
      cases h
      rcases List.mem_cons.1 hb with rfl | hb
      · exact hx
      · exact ih hrest hb

/-! ### Queries -/

variable {premise conclusion : Term} {q : Query}

theorem query_eq_ok (h : s.query premise conclusion = .ok q) :
    let relevant := relevantFrom (s.assumptions premise) conclusion.freeVars
    s.bindings relevant = .ok q.bindings ∧
      (∀ p ∈ q.premises, ∃ a ∈ s.assumptions premise, a.touches relevant = true ∧ a.fact = p) ∧
      q.conclusion = conclusion := by
  obtain ⟨bs, hbs, h⟩ := bind_eq_ok.1 h
  cases h
  refine ⟨hbs, fun p hp => ?_, rfl⟩
  obtain ⟨a, ha, rfl⟩ := List.mem_map.1 (List.mem_filter.1 hp).1
  obtain ⟨hmem, ht⟩ := List.mem_filter.1 ha
  exact ⟨a, hmem, ht, rfl⟩

theorem nodup_query (h : s.query premise conclusion = .ok q) : (Query.names q.bindings).Nodup := by
  rw [names_bindings (query_eq_ok h).1]
  exact (sorted_relevantFrom conclusion.sorted_freeVars).nodup

/-- The bindings of a query have the base types of the scope. -/
theorem bases_query (h : s.query premise conclusion = .ok q) {x : String} (hx : x ∈ Query.names q.bindings) :
    Query.bases q.bindings x = s.baseOf? x := by
  obtain ⟨b, hb, rfl⟩ := List.mem_map.1 hx
  rw [Query.bases_of_mem (nodup_query h) hb, baseOf?_of_mem_bindings (query_eq_ok h).1 hb]

/-- The terms of a query mention its bindings only. -/
theorem freeVars_subset_query (h : s.query premise conclusion = .ok q) {t : Term}
    (ht : t ∈ q.conclusion :: q.premises) {x : String} (hx : x ∈ t.freeVars) : x ∈ Query.names q.bindings := by
  obtain ⟨hbs, hprem, hconc⟩ := query_eq_ok h
  rw [names_bindings hbs]
  rcases List.mem_cons.1 ht with rfl | ht
  · exact subset_relevantFrom _ _ x (hconc ▸ hx)
  · obtain ⟨a, ha, htouch, rfl⟩ := hprem t ht
    exact names_subset_relevantFrom ha htouch x (freeVars_subset_names hx)

/-- Values of the names of a scope that make the premises of a query true and its conclusion false. -/
theorem falsifiable_of_query {ρ : Valuation} (h : s.query premise conclusion = .ok q)
    (hfits : ρ.Fits s.baseOf?) (hf : q.Falsified ρ) : q.Falsifiable := by
  -- the values of the bindings alone
  let ρ' : Valuation := fun x => if x ∈ Query.names q.bindings then ρ x else none
  have hsame : ∀ t ∈ q.conclusion :: q.premises, t.denote ρ' = t.denote ρ :=
    fun t ht => Term.denote_congr fun x hx => if_pos (freeVars_subset_query h ht hx)
  refine ⟨ρ', fun x => ?_, fun p hp => ?_, ?_⟩
  · by_cases hx : x ∈ Query.names q.bindings
    · obtain ⟨b, hb, rfl⟩ := List.mem_map.1 hx
      obtain ⟨v, hv, hvb⟩ := hfits _ _ (baseOf?_of_mem_bindings (query_eq_ok h).1 hb)
      rw [Query.bases_of_mem (nodup_query h) hb, ← hvb]
      simp only [ρ', if_pos hx, hv, Option.map_some]
    · rw [Query.bases_eq_none.2 hx]
      simp only [ρ', if_neg hx, Option.map_none]
  · rw [Term.Holds, hsame p (List.mem_cons_of_mem _ hp)]
    exact hf.1 p hp
  · rw [hsame _ List.mem_cons_self]
    exact hf.2

/-- A valid query about a scope tells the truth about every state of the program that the scope describes. -/
theorem holds_of_query {ρ : Valuation} (h : s.query premise conclusion = .ok q) (hq : q.Valid)
    (hfits : ρ.Fits s.baseOf?) (hknown : ∀ a ∈ s.assumptions premise, a.fact.Holds ρ) {b : Bool}
    (hb : conclusion.denote ρ = some (.bool b)) : conclusion.Holds ρ := by
  cases b with
  | true => exact hb
  | false =>
    obtain ⟨-, hprem, hconc⟩ := query_eq_ok h
    have hf : q.Falsified ρ := by
      refine ⟨fun p hp => ?_, hconc ▸ hb⟩
      obtain ⟨a, ha, -, rfl⟩ := hprem p hp
      exact hknown a ha
    exact absurd (falsifiable_of_query h hfits hf) ((Query.valid_iff (nodup_query h)).1 hq)

end Scope

end LayerCheck
