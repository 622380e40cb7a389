import Mathlib
import LayerCheck.Proofs.Refinement.Query

/-! What a query leaves out. Of everything known in a scope a query keeps what is connected with its
conclusion, and the rest shares no variable with it. Values for the two parts can be put together, so
the query is as good as the one with everything known, unless what is left out contradicts itself. -/
namespace LayerCheck

namespace Scope

variable {s : Scope} {premise conclusion : Term} {q : Query}

/-- The names that matter to a conclusion. -/
def relevant (s : Scope) (premise conclusion : Term) : NameSet :=
  relevantFrom (s.assumptions premise) conclusion.freeVars

/-- The facts that a query uses, plainly true ones included. -/
def kept (s : Scope) (premise conclusion : Term) : List Term :=
  (touched (s.relevant premise conclusion) (s.assumptions premise)).map (·.fact)

/-- The facts that a query leaves out. -/
def dropped (s : Scope) (premise conclusion : Term) : List Term :=
  (untouched (s.relevant premise conclusion) (s.assumptions premise)).map (·.fact)

/-- The variables and temporaries of a scope with their base types, each once. -/
def allBindings (s : Scope) : List Binding :=
  (NameSet.ofList (s.vars.keys ++ s.temporaries.map (·.name))).filterMap fun x =>
    (s.baseOf? x).map fun base => ⟨x, base⟩

/-- The query with everything known in a scope as premises. -/
def fullQuery (s : Scope) (premise conclusion : Term) : Query :=
  ⟨s.allBindings, (s.assumptions premise).map (·.fact), conclusion⟩

/-! ### The two parts -/

theorem perm_kept_dropped (s : Scope) (premise conclusion : Term) :
    (s.kept premise conclusion ++ s.dropped premise conclusion).Perm
      ((s.assumptions premise).map (·.fact)) := by
  rw [kept, dropped, ← List.map_append]
  exact (List.filter_append_perm _ _).map _

theorem premises_query (h : s.query premise conclusion = .ok q) :
    q.premises = (s.kept premise conclusion).filter (· != .bool true) := by
  obtain ⟨bs, -, h⟩ := bind_eq_ok.1 h
  cases h
  rfl

theorem names_query (h : s.query premise conclusion = .ok q) :
    Query.names q.bindings = s.relevant premise conclusion :=
  names_bindings (query_eq_ok h).1

theorem freeVars_kept {t : Term} (ht : t ∈ s.kept premise conclusion) {x : String} (hx : x ∈ t.freeVars) :
    x ∈ s.relevant premise conclusion := by
  obtain ⟨a, ha, rfl⟩ := List.mem_map.1 ht
  obtain ⟨hmem, htouch⟩ := List.mem_filter.1 ha
  exact names_subset_relevantFrom hmem htouch x (freeVars_subset_names hx)

theorem freeVars_dropped {t : Term} (ht : t ∈ s.dropped premise conclusion) {x : String}
    (hx : x ∈ t.freeVars) : x ∉ s.relevant premise conclusion := by
  obtain ⟨a, ha, rfl⟩ := List.mem_map.1 ht
  have hnot := (List.mem_filter.1 ha).2
  intro hrel
  have htouch : a.touches (s.relevant premise conclusion) = true := by
    rw [Assumption.touches, Bool.or_eq_true]
    exact .inr (List.any_eq_true.2 ⟨x, freeVars_subset_names hx, List.contains_iff_mem.2 hrel⟩)
  simp [htouch] at hnot

/-! ### All bindings -/

theorem mem_allNames {x : String} {base : BaseType} (h : s.baseOf? x = some base) :
    x ∈ NameSet.ofList (s.vars.keys ++ s.temporaries.map (·.name)) := by
  rw [NameSet.mem_ofList, List.mem_append]
  rw [baseOf?] at h
  split at h
  next v hv => exact .inl (List.mem_map.2 ⟨(x, v), NameMap.mem_of_get? hv, rfl⟩)
  next =>
    obtain ⟨t, ht, -⟩ := Option.map_eq_some_iff.1 h
    have hname : t.name = x := by simpa using List.find?_some ht
    exact .inr (List.mem_map.2 ⟨t, List.mem_of_find?_eq_some ht, hname⟩)

theorem names_filterMap_sublist (f : String → Option BaseType) (xs : List String) :
    (Query.names (xs.filterMap fun x => (f x).map fun base => ⟨x, base⟩)).Sublist xs := by
  induction xs with
  | nil => exact .refl _
  | cons x xs ih =>
    cases hx : f x with
    | none =>
      rw [List.filterMap_cons_none (by simp [hx])]
      exact ih.cons x
    | some base =>
      rw [List.filterMap_cons_some (b := ⟨x, base⟩) (by simp [hx])]
      exact ih.cons_cons x

theorem nodup_allBindings (s : Scope) : (Query.names s.allBindings).Nodup :=
  (NameSet.sorted_ofList _).nodup.sublist (names_filterMap_sublist s.baseOf? _)

theorem mem_allBindings {b : Binding} : b ∈ s.allBindings ↔ s.baseOf? b.name = some b.base := by
  rw [allBindings, List.mem_filterMap]
  constructor
  · rintro ⟨x, -, hx⟩
    obtain ⟨base, hbase, rfl⟩ := Option.map_eq_some_iff.1 hx
    exact hbase
  · intro h
    exact ⟨b.name, mem_allNames h, by rw [h, Option.map_some]⟩

theorem bases_allBindings (s : Scope) : Query.bases s.allBindings = s.baseOf? := by
  funext x
  cases hx : s.baseOf? x with
  | some base =>
    have hmem : (⟨x, base⟩ : Binding) ∈ s.allBindings := mem_allBindings.2 hx
    exact Query.bases_of_mem s.nodup_allBindings hmem
  | none =>
    refine Query.bases_eq_none.2 fun hmem => ?_
    obtain ⟨b, hb, rfl⟩ := List.mem_map.1 hmem
    rw [mem_allBindings.1 hb] at hx
    cases hx

/-! ### Counterexamples -/

theorem falsifiable_of_fullQuery (h : s.query premise conclusion = .ok q)
    (hf : (s.fullQuery premise conclusion).Falsifiable) : q.Falsifiable := by
  obtain ⟨ρ, hρ, hfacts, hfalse⟩ := hf
  obtain ⟨-, hprem, hconc⟩ := query_eq_ok h
  refine falsifiable_of_query h (bases_allBindings s ▸ hρ.fits) ⟨fun p hp => ?_, hconc ▸ hfalse⟩
  obtain ⟨a, ha, -, rfl⟩ := hprem p hp
  exact hfacts a.fact (List.mem_map_of_mem ha)

/-- A counterexample to a query and values that satisfy what it leaves out make a counterexample to the query
with everything known. -/
theorem fullQuery_falsifiable (h : s.query premise conclusion = .ok q) (hf : q.Falsifiable) {ρ : Valuation}
    (hρ : Query.Exactly ρ s.baseOf?) (hdropped : ∀ t ∈ s.dropped premise conclusion, t.Holds ρ) :
    (s.fullQuery premise conclusion).Falsifiable := by
  obtain ⟨ρ₁, hρ₁, hprem, hfalse⟩ := hf
  let glued : Valuation := fun x => if x ∈ Query.names q.bindings then ρ₁ x else ρ x
  have hinside : ∀ t : Term, (∀ x ∈ t.freeVars, x ∈ Query.names q.bindings) → t.denote glued = t.denote ρ₁ :=
    fun t ht => Term.denote_congr fun x hx => if_pos (ht x hx)
  have houtside : ∀ t : Term, (∀ x ∈ t.freeVars, x ∉ Query.names q.bindings) → t.denote glued = t.denote ρ :=
    fun t ht => Term.denote_congr fun x hx => if_neg (ht x hx)
  have hnames := names_query h
  refine ⟨glued, fun x => ?_, fun t ht => ?_, ?_⟩
  · rw [fullQuery, bases_allBindings]
    by_cases hx : x ∈ Query.names q.bindings
    · simp only [glued, if_pos hx]
      rw [hρ₁ x, bases_query h hx]
    · simp only [glued, if_neg hx]
      exact hρ x
  · rcases List.mem_append.1 ((perm_kept_dropped s premise conclusion).mem_iff.2 ht) with ht | ht
    · rw [Term.Holds, hinside t fun x hx => hnames ▸ freeVars_kept ht hx]
      -- a fact that is plainly true is not among the premises
      by_cases htrue : t = .bool true
      · rw [htrue]
        exact Term.holds_true ρ₁
      · refine hprem t ?_
        rw [premises_query h]
        exact List.mem_filter.2 ⟨ht, by simpa using htrue⟩
    · rw [Term.Holds, houtside t fun x hx => hnames ▸ freeVars_dropped ht hx]
      exact hdropped t ht
  · obtain ⟨-, -, rfl⟩ := query_eq_ok h
    have hclosed := hinside q.conclusion fun x hx => freeVars_subset_query h List.mem_cons_self hx
    exact hclosed.trans hfalse

/-- A query keeps facts about its bindings and leaves out facts about other names. Where the facts that it leaves
out can be true together, it is valid exactly when the query with everything known is. -/
theorem query_valid_iff_full (h : s.query premise conclusion = .ok q) :
    (q.premises = (s.kept premise conclusion).filter (· != .bool true) ∧ q.conclusion = conclusion ∧
      (s.kept premise conclusion ++ s.dropped premise conclusion).Perm
        ((s.assumptions premise).map (·.fact))) ∧
    ((Query.names q.bindings).Nodup ∧ (∀ b ∈ q.bindings, b ∈ s.allBindings) ∧
      ∀ t ∈ conclusion :: s.kept premise conclusion, ∀ x ∈ t.freeVars, x ∈ Query.names q.bindings) ∧
    (∀ t ∈ s.dropped premise conclusion, ∀ x ∈ t.freeVars, x ∉ Query.names q.bindings ∧
      ∀ t' ∈ conclusion :: s.kept premise conclusion, x ∉ t'.freeVars) ∧
    ((∃ env, Query.Assigns s.allBindings env ∧
        ∀ t ∈ s.dropped premise conclusion, t.eval .unbounded env = .ok (.bool true)) →
      (q.Valid ↔ (s.fullQuery premise conclusion).Valid)) := by
  have hnames := names_query h
  have hinside : ∀ t ∈ conclusion :: s.kept premise conclusion, ∀ x ∈ t.freeVars,
      x ∈ Query.names q.bindings := by
    intro t ht x hx
    rw [hnames]
    rcases List.mem_cons.1 ht with rfl | ht
    · exact subset_relevantFrom _ _ x hx
    · exact freeVars_kept ht hx
  have houtside : ∀ t ∈ s.dropped premise conclusion, ∀ x ∈ t.freeVars, x ∉ Query.names q.bindings :=
    fun t ht x hx => hnames ▸ freeVars_dropped ht hx
  refine ⟨⟨premises_query h, (query_eq_ok h).2.2, perm_kept_dropped s premise conclusion⟩,
    ⟨nodup_query h, fun b hb => mem_allBindings.2 (baseOf?_of_mem_bindings (query_eq_ok h).1 hb), hinside⟩,
    fun t ht x hx => ⟨houtside t ht x hx, fun t' ht' hx' => houtside t ht x hx (hinside t' ht' x hx')⟩, ?_⟩
  rintro ⟨env, hassigns, htrue⟩
  have hexact : Query.Exactly env.get? s.baseOf? :=
    bases_allBindings s ▸ hassigns.exactly s.nodup_allBindings
  rw [Query.valid_iff (nodup_query h), Query.valid_iff (q := s.fullQuery _ _) s.nodup_allBindings]
  exact not_congr ⟨fun hf => fullQuery_falsifiable h hf hexact fun t ht => Term.eval_eq_ok.1 (htrue t ht),
    falsifiable_of_fullQuery h⟩

/-- Two variables that the conclusion is about, and three other names with facts of their own. -/
def sideFacts : Scope where
  vars := [("w", ⟨⟨.bool, none⟩, true⟩),
    ("x", ⟨.refined .int "v" (.binary .gt (.var "v") (.var "y")), true⟩),
    ("y", ⟨.refined .int "v" (.binary .ge (.var "v") (.int 0)), true⟩),
    ("z", ⟨.refined .int "v" (.binary .gt (.var "v") (.var "$t0")), false⟩)]
  temporaries := [⟨"$t0", .int, .binary .ge (.var "$t0") (.int 3)⟩]
  path := [.binary .lt (.var "x") (.int 10), .var "w"]

/-- The query about the two variables. -/
def sideFactsQuery : Query :=
  ⟨[⟨"x", .int⟩, ⟨"y", .int⟩],
    [.binary .gt (.var "x") (.var "y"), .binary .ge (.var "y") (.int 0), .binary .lt (.var "x") (.int 10)],
    .binary .gt (.var "x") (.int 0)⟩

theorem sideFacts_query_valid_iff :
    sideFacts.query (.bool true) (.binary .gt (.var "x") (.int 0)) = .ok sideFactsQuery ∧
      sideFacts.dropped (.bool true) (.binary .gt (.var "x") (.int 0)) =
        [.bool true, .binary .gt (.var "z") (.var "$t0"), .binary .ge (.var "$t0") (.int 3), .var "w"] ∧
      (sideFactsQuery.Valid ↔
        (sideFacts.fullQuery (.bool true) (.binary .gt (.var "x") (.int 0))).Valid) := by
  have hquery : sideFacts.query (.bool true) (.binary .gt (.var "x") (.int 0)) = .ok sideFactsQuery := by cbv
  have hdropped : sideFacts.dropped (.bool true) (.binary .gt (.var "x") (.int 0)) =
      [.bool true, .binary .gt (.var "z") (.var "$t0"), .binary .ge (.var "$t0") (.int 3), .var "w"] := by cbv
  obtain ⟨-, -, -, hvalid⟩ := query_valid_iff_full hquery
  refine ⟨hquery, hdropped, hvalid ⟨[("$t0", .int 3), ("w", .bool true), ("x", .int 0), ("y", .int 0),
    ("z", .int 4)], by cbv, ?_⟩⟩
  rw [hdropped]
  simp only [List.forall_mem_cons, List.not_mem_nil, false_implies, implies_true, and_true]
  exact ⟨by cbv, by cbv, by cbv, by cbv⟩

end Scope

end LayerCheck
