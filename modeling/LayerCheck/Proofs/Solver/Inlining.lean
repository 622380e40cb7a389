import Mathlib
import LayerCheck.Proofs.Solver.Validity
import LayerCheck.Solver.Elimination

/-! Inlining definitions neither adds nor removes counterexamples. One step takes a premise that gives
the value of a variable and replaces the variable: a counterexample loses the variable, and over typed
terms it gets it back with the value that the premise gives. The steps end when no premise gives the
value of a binding any more, with a typed query over the bindings that are left. -/
namespace LayerCheck

namespace Term

theorem holds_conjuncts {ρ : Valuation} {t : Term} : (∀ p ∈ t.conjuncts, p.Holds ρ) ↔ t.Holds ρ := by
  fun_induction conjuncts t with
  | case1 l r ihl ihr =>
    rw [holds_and, ← ihl, ← ihr]
    simp only [List.mem_append]
    exact ⟨fun h => ⟨fun p hp => h p (.inl hp), fun p hp => h p (.inr hp)⟩,
      fun h p hp => hp.elim (h.1 p) (h.2 p)⟩
  | case2 => simp [holds_true]
  | case3 t => simp

theorem HasBase.conjuncts {Γ : Bases} {t p : Term} (ht : t.HasBase Γ .bool) (hp : p ∈ t.conjuncts) :
    p.HasBase Γ .bool := by
  fun_induction Term.conjuncts t with
  | case1 l r ihl ihr =>
    obtain ⟨hl, hr⟩ := ht.of_isLogical rfl
    exact (List.mem_append.1 hp).elim (ihl hl) (ihr hr)
  | case2 => cases hp
  | case3 t =>
    rw [List.mem_singleton.1 hp]
    exact ht

end Term

namespace Query

/-! ### The definition that is taken -/

/-- A premise says what a variable is. -/
def Defines (p : Term) (d : Definition) : Prop :=
  p = .equal (.var d.name) d.value ∨ p = .equal d.value (.var d.name)

theorem definition?_eq_some {bound : List Binding} {l r : Term} {d : Definition}
    (h : definition? bound l r = some d) :
    l = .var d.name ∧ r = d.value ∧ d.name ∈ names bound ∧ d.name ∉ d.value.freeVars := by
  unfold definition? at h
  split at h
  next x =>
    split at h
    next hx =>
      simp only [Bool.and_eq_true, List.any_eq_true, beq_iff_eq, Bool.not_eq_true'] at hx
      obtain ⟨⟨b, hb, hbx⟩, hfree⟩ := hx
      cases h
      exact ⟨rfl, rfl, List.mem_map.2 ⟨b, hb, hbx⟩, by simpa using hfree⟩
    next => cases h
  next => cases h

theorem definitionOf?_eq_some {bound : List Binding} {p : Term} {d : Definition}
    (h : definitionOf? bound p = some d) :
    Defines p d ∧ d.name ∈ names bound ∧ d.name ∉ d.value.freeVars := by
  unfold definitionOf? at h
  split at h
  next l r =>
    rcases Option.or_eq_some_iff.1 h with h | ⟨-, h⟩
    · obtain ⟨rfl, rfl, hm, hf⟩ := definition?_eq_some h
      exact ⟨.inl rfl, hm, hf⟩
    · obtain ⟨rfl, rfl, hm, hf⟩ := definition?_eq_some h
      exact ⟨.inr rfl, hm, hf⟩
  next => cases h

theorem takeDefinition?_eq_some {bound : List Binding} {ps rest : List Term} {d : Definition}
    (h : takeDefinition? bound ps = some (d, rest)) :
    ∃ p, definitionOf? bound p = some d ∧ ps.Perm (p :: rest) := by
  induction ps generalizing rest with
  | nil => cases h
  | cons p ps ih =>
    rw [takeDefinition?] at h
    split at h
    next hd =>
      cases h
      exact ⟨p, hd, .refl _⟩
    next =>
      obtain ⟨⟨d', rest'⟩, h', he⟩ := Option.map_eq_some_iff.1 h
      cases he
      obtain ⟨p', hd, hperm⟩ := ih h'
      exact ⟨p', hd, (hperm.cons p).trans (.swap p' p rest')⟩

theorem Defines.holds_iff {p : Term} {d : Definition} (h : Defines p d) {ρ : Valuation} :
    p.Holds ρ ↔ ∃ v, ρ d.name = some v ∧ d.value.denote ρ = some v := by
  rcases h with rfl | rfl
  · exact Term.holds_equal
  · rw [Term.holds_equal]
    exact ⟨fun ⟨v, h₁, h₂⟩ => ⟨v, h₂, h₁⟩, fun ⟨v, h₁, h₂⟩ => ⟨v, h₂, h₁⟩⟩

theorem Defines.hasBase {p : Term} {d : Definition} (h : Defines p d) {Γ : Bases} (hp : p.HasBase Γ .bool) :
    ∃ b, Γ d.name = some b ∧ d.value.HasBase Γ b := by
  rcases h with rfl | rfl
  · cases hp with
    | binary _ hl hr =>
      cases hl with
      | var hx => exact ⟨_, hx, hr⟩
  · cases hp with
    | binary _ hl hr =>
      cases hr with
      | var hx => exact ⟨_, hx, hl⟩

/-! ### One step -/

theorem bases_without (bs : List Binding) (x y : String) :
    bases (bs.filter (·.name != x)) y = if y = x then none else bases bs y := by
  induction bs with
  | nil => simp [bases]
  | cons b bs ih =>
    by_cases hb : b.name = x
    · rw [List.filter_cons_of_neg (by simp [hb]), ih, bases_cons]
      by_cases hy : y = x
      · simp [hy]
      · simp [hy, hb, Ne.symm hy]
    · rw [List.filter_cons_of_pos (by simp [hb]), bases_cons, bases_cons, ih]
      by_cases hy : y = x
      · simp [hy, hb]
      · simp [hy]

variable {q : Query} {d : Definition} {ρ ρ' : Valuation}

/-- Replacing a variable by a term changes nothing when the variable has the value of the term. -/
theorem falsified_inline_iff (hother : ∀ y, y ≠ d.name → ρ y = ρ' y) (hval : ρ d.name = d.value.denote ρ') :
    (q.inline d).Falsified ρ' ↔ q.Falsified ρ := by
  have hsubst : ∀ t : Term, (t.subst (Term.single d.name d.value)).denote ρ' = t.denote ρ := by
    intro t
    rw [Term.denote_subst_single]
    refine Term.denote_congr fun y _ => ?_
    by_cases hy : y = d.name
    · rw [if_pos hy, hy, hval]
    · rw [if_neg hy, hother y hy]
  simp only [Falsified, inline, Term.Holds, List.forall_mem_map, hsubst]

/-- The query without the premise that defines a variable, and without the variable. -/
def reduced (q : Query) (d : Definition) (rest : List Term) : Query := inline { q with premises := rest } d

theorem bases_reduced (q : Query) (d : Definition) (rest : List Term) (y : String) :
    bases (q.reduced d rest).bindings y = if y = d.name then none else bases q.bindings y :=
  bases_without q.bindings d.name y

theorem bindings_reduced_sublist (q : Query) (d : Definition) (rest : List Term) :
    (q.reduced d rest).bindings.Sublist q.bindings :=
  List.filter_sublist

theorem falsified_iff_of_perm {p : Term} {rest : List Term} (hperm : q.premises.Perm (p :: rest)) :
    q.Falsified ρ ↔ p.Holds ρ ∧ ({ q with premises := rest } : Query).Falsified ρ := by
  simp only [Falsified, hperm.mem_iff, List.forall_mem_cons, and_assoc]

theorem Falsifiable.reduced {rest : List Term} (ht : takeDefinition? q.bindings q.premises = some (d, rest))
    (h : q.Falsifiable) : (q.reduced d rest).Falsifiable := by
  obtain ⟨ρ, hρ, hf⟩ := h
  obtain ⟨p, hp, hperm⟩ := takeDefinition?_eq_some ht
  obtain ⟨hdef, -, hfree⟩ := definitionOf?_eq_some hp
  obtain ⟨hpρ, hrest⟩ := (falsified_iff_of_perm hperm).1 hf
  obtain ⟨v, hv, hval⟩ := hdef.holds_iff.1 hpρ
  let ρ' : Valuation := fun y => if y = d.name then none else ρ y
  have hother : ∀ y, y ≠ d.name → ρ y = ρ' y := fun y hy => (if_neg hy).symm
  refine ⟨ρ', fun y => ?_, (falsified_inline_iff hother ?_).2 hrest⟩
  · rw [bases_reduced, ← hρ y]
    by_cases hy : y = d.name <;> simp [ρ', hy]
  · -- the term does not mention the variable, so it keeps its value
    rw [hv, ← hval]
    exact Term.denote_congr fun y hy => hother y fun e => hfree (e ▸ hy)

theorem Falsifiable.of_reduced {rest : List Term} (hw : q.WellTyped)
    (ht : takeDefinition? q.bindings q.premises = some (d, rest)) (h : (q.reduced d rest).Falsifiable) :
    q.Falsifiable := by
  obtain ⟨ρ', hρ', hf⟩ := h
  obtain ⟨p, hp, hperm⟩ := takeDefinition?_eq_some ht
  obtain ⟨hdef, hbound, hfree⟩ := definitionOf?_eq_some hp
  obtain ⟨b, hb, hvalue⟩ := hdef.hasBase (hw.premises p (hperm.mem_iff.2 List.mem_cons_self))
  have hvalue' : d.value.HasBase (bases (q.reduced d rest).bindings) b := by
    refine hvalue.mono fun y hy c hc => ?_
    rw [bases_reduced, if_neg fun e : y = d.name => hfree (e ▸ hy), hc]
  obtain ⟨v, hv, hvb⟩ := hvalue'.denote hρ'.fits
  let ρ : Valuation := fun y => if y = d.name then some v else ρ' y
  have hother : ∀ y, y ≠ d.name → ρ y = ρ' y := fun y hy => if_neg hy
  have hname : ρ d.name = some v := if_pos rfl
  refine ⟨ρ, fun y => ?_, (falsified_iff_of_perm hperm).2 ⟨?_, ?_⟩⟩
  · by_cases hy : y = d.name
    · rw [hy, hname, hb, Option.map_some, hvb]
    · rw [hother y hy, hρ' y, bases_reduced, if_neg hy]
  · refine hdef.holds_iff.2 ⟨v, hname, ?_⟩
    rw [← hv]
    exact Term.denote_congr fun y hy => hother y fun e => hfree (e ▸ hy)
  · exact (falsified_inline_iff hother (hname.trans hv.symm)).1 hf

theorem WellTyped.reduced {rest : List Term} (hw : q.WellTyped)
    (ht : takeDefinition? q.bindings q.premises = some (d, rest)) : (q.reduced d rest).WellTyped := by
  obtain ⟨p, hp, hperm⟩ := takeDefinition?_eq_some ht
  obtain ⟨hdef, -, hfree⟩ := definitionOf?_eq_some hp
  obtain ⟨b, hb, hvalue⟩ := hdef.hasBase (hw.premises p (hperm.mem_iff.2 List.mem_cons_self))
  have hsubst : ∀ t : Term, t.HasBase (bases q.bindings) .bool →
      (t.subst (Term.single d.name d.value)).HasBase (bases (q.reduced d rest).bindings) .bool := by
    intro t htyped
    refine htyped.subst fun y _ c hc => ?_
    by_cases hy : y = d.name
    · subst hy
      obtain rfl : b = c := Option.some.inj (hb.symm.trans hc)
      simp only [Term.single, if_pos, Option.getD_some]
      refine hvalue.mono fun z hz c hc => ?_
      rw [bases_reduced, if_neg fun e : z = d.name => hfree (e ▸ hz), hc]
    · simp only [Term.single, if_neg hy, Option.getD_none]
      refine .var ?_
      rw [bases_reduced, if_neg hy, hc]
  constructor
  · intro s hs
    obtain ⟨t, ht, rfl⟩ := List.mem_map.1 hs
    exact hsubst t (hw.premises t (hperm.mem_iff.2 (List.mem_cons_of_mem _ ht)))
  · exact hsubst _ hw.conclusion

/-! ### All steps -/

theorem bindings_inlineAll_sublist (q : Query) : q.inlineAll.bindings.Sublist q.bindings := by
  fun_induction inlineAll q with
  | case1 q h => exact .refl _
  | case2 q d rest h ih => exact ih.trans (bindings_reduced_sublist q d rest)

/-- No premise gives the value of a binding: an equation of a binding with a term mentions it in the term. -/
def Inlined (q : Query) : Prop :=
  ∀ p ∈ q.premises, ∀ d, Defines p d → d.name ∈ names q.bindings → d.name ∈ d.value.freeVars

theorem definition?_isSome {bound : List Binding} {d : Definition} (hm : d.name ∈ names bound)
    (hf : d.name ∉ d.value.freeVars) : definition? bound (.var d.name) d.value = some d := by
  obtain ⟨b, hb, hname⟩ := List.mem_map.1 hm
  have hany : bound.any (·.name == d.name) = true := List.any_eq_true.2 ⟨b, hb, beq_iff_eq.2 hname⟩
  simp [definition?, hany, hf]

theorem definitionOf?_isSome {bound : List Binding} {p : Term} {d : Definition} (hp : Defines p d)
    (hm : d.name ∈ names bound) (hf : d.name ∉ d.value.freeVars) : (definitionOf? bound p).isSome := by
  have hd := definition?_isSome hm hf
  rcases hp with rfl | rfl <;> simp [definitionOf?, Term.equal, hd]

theorem takeDefinition?_eq_none {bound : List Binding} {ps : List Term} (h : takeDefinition? bound ps = none) :
    ∀ p ∈ ps, definitionOf? bound p = none := by
  induction ps with
  | nil => simp
  | cons p ps ih =>
    rw [takeDefinition?] at h
    split at h
    next => cases h
    next hp => exact List.forall_mem_cons.2 ⟨hp, ih (Option.map_eq_none_iff.1 h)⟩

theorem inlined_inlineAll (q : Query) : q.inlineAll.Inlined := by
  fun_induction inlineAll q with
  | case1 q h =>
    intro p hp d hd hm
    refine Decidable.byContradiction fun hf => ?_
    have hsome := definitionOf?_isSome hd hm hf
    rw [takeDefinition?_eq_none h p hp] at hsome
    cases hsome
  | case2 q d rest h ih => exact ih

theorem WellTyped.inlineAll {q : Query} (hw : q.WellTyped) : q.inlineAll.WellTyped := by
  fun_induction Query.inlineAll q with
  | case1 q h => exact hw
  | case2 q d rest h ih => exact ih (hw.reduced h)

theorem Falsifiable.inlineAll {q : Query} (h : q.Falsifiable) : q.inlineAll.Falsifiable := by
  fun_induction Query.inlineAll q with
  | case1 q ht => exact h
  | case2 q d rest ht ih => exact ih (h.reduced ht)

theorem Falsifiable.of_inlineAll {q : Query} (hw : q.WellTyped) (h : q.inlineAll.Falsifiable) :
    q.Falsifiable := by
  fun_induction Query.inlineAll q with
  | case1 q ht => exact h
  | case2 q d rest ht ih => exact .of_reduced hw ht (ih (hw.reduced ht) h)

/-- The query with its conjunctions split. -/
def split (q : Query) : Query := { q with premises := q.premises.flatMap Term.conjuncts }

theorem falsifiable_split (q : Query) : q.split.Falsifiable ↔ q.Falsifiable := by
  have hprem : ∀ ρ, (∀ p ∈ q.premises.flatMap Term.conjuncts, p.Holds ρ) ↔ ∀ p ∈ q.premises, p.Holds ρ := by
    intro ρ
    rw [List.forall_mem_flatMap]
    exact forall₂_congr fun p _ => Term.holds_conjuncts
  simp only [Falsifiable, Falsified, split, hprem]

theorem WellTyped.split {q : Query} (hw : q.WellTyped) : q.split.WellTyped := by
  refine ⟨fun p hp => ?_, hw.conclusion⟩
  obtain ⟨t, ht, hpt⟩ := List.mem_flatMap.1 hp
  exact (hw.premises t ht).conjuncts hpt

theorem names_eliminate_sublist (q : Query) : (names q.eliminate.bindings).Sublist (names q.bindings) :=
  (bindings_inlineAll_sublist q.split).map _

theorem Falsifiable.eliminate {q : Query} (h : q.Falsifiable) : q.eliminate.Falsifiable :=
  ((falsifiable_split q).2 h).inlineAll

theorem Falsifiable.of_eliminate {q : Query} (hw : q.WellTyped) (h : q.eliminate.Falsifiable) :
    q.Falsifiable :=
  (falsifiable_split q).1 (.of_inlineAll hw.split h)

/-- Elimination of equations ends with a typed query over some of the bindings, in which nothing is left to
inline, and the two queries are valid together. -/
theorem eliminate_valid_iff {q : Query} (hn : (names q.bindings).Nodup) (hw : q.WellTyped) :
    q.eliminate.bindings.Sublist q.bindings ∧ q.eliminate.WellTyped ∧
      (∀ t ∈ q.eliminate.conclusion :: q.eliminate.premises, ∀ x ∈ t.freeVars,
        x ∈ names q.eliminate.bindings) ∧
      q.eliminate.Inlined ∧ (q.eliminate.Valid ↔ q.Valid) := by
  have hw' : q.eliminate.WellTyped := hw.split.inlineAll
  refine ⟨bindings_inlineAll_sublist q.split, hw', fun t ht x hx => hw'.closed ht hx,
    inlined_inlineAll q.split, ?_⟩
  rw [valid_iff (hn.sublist (names_eliminate_sublist q)), valid_iff hn]
  exact not_congr ⟨.of_eliminate hw, .eliminate⟩

/-- A chain of definitions in one premise: `x` is `y + 1`, and `b` says that `x` is positive. -/
def chainedQuery : Query :=
  ⟨[⟨"x", .int⟩, ⟨"b", .bool⟩, ⟨"y", .int⟩],
    [.binary .and (.equal (.var "x") (.binary .add (.var "y") (.int 1)))
      (.equal (.binary .gt (.var "x") (.int 0)) (.var "b")), .var "b"],
    .binary .ge (.var "y") (.int 0)⟩

theorem chainedQuery_eliminate_valid_iff :
    ((names chainedQuery.bindings).Nodup ∧ chainedQuery.WellTyped) ∧
      chainedQuery.eliminate = ⟨[⟨"y", .int⟩],
        [.binary .gt (.binary .add (.var "y") (.int 1)) (.int 0)], .binary .ge (.var "y") (.int 0)⟩ ∧
      chainedQuery.eliminate.WellTyped ∧ (chainedQuery.eliminate.Valid ↔ chainedQuery.Valid) := by
  have hn : (names chainedQuery.bindings).Nodup := by decide
  have hw : chainedQuery.WellTyped := by decide
  obtain ⟨-, hw', -, -, hvalid⟩ := eliminate_valid_iff hn hw
  exact ⟨⟨hn, hw⟩, by cbv, hw', hvalid⟩

end Query

end LayerCheck
