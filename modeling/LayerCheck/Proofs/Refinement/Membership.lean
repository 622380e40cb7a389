import Mathlib
import LayerCheck.Proofs.Name.Map
import LayerCheck.Proofs.Refinement.Names
import LayerCheck.Proofs.Term.Typing

/-! Which values belong to a refined type. The verdict on a value is the predicate of the type where its
bound name has that value; putting a term for a value into the predicate, or terms for its other
variables, does to verdicts what it should, since bound names are renamed before they capture anything. -/
namespace LayerCheck

namespace RefinedType

variable {ρ ρ' : Valuation} {v : Value} {ty : RefinedType}

/-- What the predicate of a type says of a value. -/
def verdict (ty : RefinedType) (ρ : Valuation) (v : Value) : Option Value :=
  match ty.refinement with
  | some r => r.predicate.denote (ρ.set r.name v)
  | none => some (.bool true)

/-- A value has the base type and satisfies the predicate. -/
def Admits (ty : RefinedType) (ρ : Valuation) (v : Value) : Prop :=
  v.base = ty.base ∧ ty.verdict ρ v = some (.bool true)

instance (ty : RefinedType) (ρ : Valuation) (v : Value) : Decidable (ty.Admits ρ v) :=
  inferInstanceAs (Decidable (_ ∧ _))

/-- The variables that a type mentions besides its bound name. -/
def Mentions (ty : RefinedType) (x : String) : Prop :=
  ∃ r, ty.refinement = some r ∧ x ∈ r.predicate.freeVars ∧ x ≠ r.name

instance (ty : RefinedType) (x : String) : Decidable (ty.Mentions x) :=
  decidable_of_iff (∃ r ∈ ty.refinement, x ∈ r.predicate.freeVars ∧ x ≠ r.name) Iff.rfl

theorem verdict_congr (h : ∀ x, ty.Mentions x → ρ x = ρ' x) : ty.verdict ρ v = ty.verdict ρ' v := by
  rw [verdict, verdict]
  cases hr : ty.refinement with
  | none => rfl
  | some r =>
    refine Term.denote_congr fun x hx => ?_
    rw [Valuation.set, Valuation.set]
    split
    next => rfl
    next hne => exact h x ⟨r, hr, hx, hne⟩

theorem denote_predicateFor {t : Term} (ht : t.denote ρ = some v) :
    (ty.predicateFor t).denote ρ = ty.verdict ρ v := by
  rw [predicateFor, verdict]
  cases ty.refinement with
  | none => rfl
  | some r =>
    simp only
    rw [Refinement.instantiate, Term.denote_subst_single, ht]
    rfl

theorem denote_predicateFor_var {x : String} (hx : ρ x = some v) :
    (ty.predicateFor (.var x)).denote ρ = ty.verdict ρ v :=
  denote_predicateFor (ρ := ρ) (t := .var x) hx

/-- A typed predicate has a verdict on every value of the base type. -/
theorem verdict_eq_bool {Γ : Bases}
    (h : ∀ r, ty.refinement = some r → r.predicate.HasBase (Γ.set r.name ty.base) .bool) (hρ : ρ.Fits Γ)
    (hv : v.base = ty.base) : ∃ b, ty.verdict ρ v = some (.bool b) := by
  rw [verdict]
  cases hr : ty.refinement with
  | none => exact ⟨true, rfl⟩
  | some r =>
    rcases (h r hr).holds_or (hρ.set hv r.name) with h | h
    · exact ⟨true, h⟩
    · exact ⟨false, h⟩

/-! ### Substitution -/

theorem base_subst (m : NameMap Term) (ty : RefinedType) : (ty.subst m).base = ty.base := by
  unfold subst
  split <;> rfl

theorem mem_incoming {m : NameMap Term} {predicate : Term} {x y : String} {t : Term} (hx : m.get? x = some t)
    (hmem : x ∈ predicate.freeVars) (hy : y ∈ t.freeVars) : y ∈ incoming m predicate := by
  rw [incoming, NameSet.mem_ofList, List.mem_flatMap]
  refine ⟨(x, t), List.mem_filter.2 ⟨NameMap.mem_of_get? hx, ?_⟩, hy⟩
  simpa using hmem

theorem exists_freshBoundName (taken : List String) : ∃ n, freshBoundName taken = boundName n := by
  unfold freshBoundName
  cases hfind : ((List.range (taken.length + 1)).map boundName).find? (!taken.contains ·) with
  | none => exact ⟨1, rfl⟩
  | some x =>
    obtain ⟨n, -, hn⟩ := List.mem_map.1 (List.mem_of_find?_eq_some hfind)
    exact ⟨n, hn.symm⟩

theorem subst_of_none (hr : ty.refinement = none) (m : NameMap Term) : ty.subst m = ty := by
  unfold subst
  rw [hr]

end RefinedType

namespace Refinement

/-- Terms for the free variables of a predicate and a name for its bound value, put in at once. -/
def filling (r : Refinement) (name : String) (m : NameMap Term) : String → Option Term :=
  fun x => if x = r.name then some (.var name) else m.get? x

/-- A term put in for a free variable mentions a name. -/
def Receives (r : Refinement) (m : NameMap Term) (y : String) : Prop :=
  ∃ x t, x ∈ r.predicate.freeVars ∧ x ≠ r.name ∧ m.get? x = some t ∧ y ∈ t.freeVars

theorem Receives.mem_incoming {r : Refinement} {m : NameMap Term} {y : String} (h : r.Receives m y) :
    y ∈ RefinedType.incoming (m.erase r.name) r.predicate := by
  obtain ⟨x, t, hx, hne, ht, hy⟩ := h
  refine RefinedType.mem_incoming ?_ hx hy
  rw [NameMap.get?_erase, if_neg hne, ht]

end Refinement

namespace RefinedType

variable {ρ : Valuation} {v : Value} {ty : RefinedType} {m : NameMap Term}

/-- A substitution into a type is one substitution into its predicate. The bound name is then in none of the terms
put in, and a new bound name stands for nothing else in the predicate. -/
theorem exists_subst_eq {r : Refinement} (hm : ∀ n, m.get? (boundName n) = none) (hr : ty.refinement = some r) :
    ∃ name, ty.subst m = refined ty.base name (r.predicate.subst (r.filling name m)) ∧ ¬ r.Receives m name ∧
      (name = r.name ∨ r.name ∈ incoming (m.erase r.name) r.predicate ∧ name ∉ r.predicate.freeVars ∧
        ∃ n, name = boundName n) := by
  unfold subst
  rw [hr]
  dsimp only
  split
  next hcaptured =>
    -- the bound name would capture a variable that is put in, so it gives way to a fresh one
    have hfresh := freshBoundName_not_mem (incoming (m.erase r.name) r.predicate ++ r.predicate.freeVars)
    obtain ⟨n, hn⟩ := exists_freshBoundName (incoming (m.erase r.name) r.predicate ++ r.predicate.freeVars)
    rw [hn, List.mem_append, not_or] at hfresh
    rw [hn]
    refine ⟨boundName n, ?_, fun h => hfresh.1 h.mem_incoming,
      .inr ⟨List.contains_iff_mem.1 hcaptured, hfresh.2, n, rfl⟩⟩
    rw [Term.rename, Term.subst_subst]
    congr 1
    refine Term.subst_congr fun x _ => ?_
    rw [Option.getD_some, Term.single, Refinement.filling]
    split
    next => rw [Option.getD_some, Term.subst, NameMap.get?_erase, hm n, ite_self, Option.getD_none]
    next hne => rw [Option.getD_none, Term.subst, NameMap.get?_erase, if_neg hne]
  next hfree =>
    refine ⟨r.name, ?_, fun h => hfree (List.contains_iff_mem.2 h.mem_incoming), .inl rfl⟩
    congr 1
    refine Term.subst_congr fun x _ => ?_
    rw [NameMap.get?_erase, Refinement.filling]
    split
    next hx => rw [Option.getD_none, Option.getD_some, hx]
    next => rfl

/-- The verdict after a substitution is the verdict where the variables have the values of the terms put in
for them. -/
theorem verdict_subst (hm : ∀ n, m.get? (boundName n) = none) :
    (ty.subst m).verdict ρ v = ty.verdict (Term.pulled ρ m.get?) v := by
  cases hr : ty.refinement with
  | none => rw [subst_of_none hr, verdict, verdict, hr]
  | some r =>
    obtain ⟨name, heq, hfree, hname⟩ := exists_subst_eq hm hr
    rw [heq, verdict, verdict, hr]
    dsimp only [refined]
    rw [Term.denote_subst]
    refine Term.denote_congr fun x hx => ?_
    by_cases hxr : x = r.name
    · rw [Term.pulled, Refinement.filling, if_pos hxr, hxr, Valuation.set_self]
      exact Valuation.set_self ρ name v
    · have hxn : x ≠ name := by
        rintro rfl
        exact hname.elim hxr fun h => h.2.1 hx
      rw [Valuation.set_of_ne _ hxr, Term.pulled, Term.pulled, Refinement.filling, if_neg hxr]
      cases ht : m.get? x with
      | none => exact Valuation.set_of_ne ρ hxn v
      | some t =>
        refine Term.denote_congr fun y hy => Valuation.set_of_ne ρ ?_ v
        rintro rfl
        exact hfree ⟨x, t, hx, hxr, ht, hy⟩

/-- A type mentions after a substitution what the terms put into it mention. -/
theorem mentions_subst (hm : ∀ n, m.get? (boundName n) = none) {x : String} (h : (ty.subst m).Mentions x) :
    ∃ y, ty.Mentions y ∧ x ∈ ((m.get? y).getD (.var y)).freeVars := by
  obtain ⟨r', hr', hx, hne⟩ := h
  cases hr : ty.refinement with
  | none =>
    rw [subst_of_none hr, hr] at hr'
    cases hr'
  | some r =>
    obtain ⟨name, heq, -, -⟩ := exists_subst_eq hm hr
    rw [heq] at hr'
    cases hr'
    obtain ⟨y, hy, hxy⟩ := Term.mem_freeVars_subst hx
    rw [Refinement.filling] at hxy
    split at hxy
    next => exact absurd (List.mem_singleton.1 hxy) hne
    next hyr => exact ⟨y, ⟨r, hr, hy, hyr⟩, hxy⟩

theorem mem_freeVars_predicateFor {t : Term} {x : String} (h : x ∈ (ty.predicateFor t).freeVars) :
    ty.Mentions x ∨ x ∈ t.freeVars := by
  rw [predicateFor] at h
  cases hr : ty.refinement with
  | none =>
    rw [hr] at h
    cases h
  | some r =>
    rw [hr] at h
    obtain ⟨y, hy, hxy⟩ := Term.mem_freeVars_subst h
    rw [Term.single] at hxy
    split at hxy
    next => exact .inr hxy
    next hne =>
      rw [List.mem_singleton.1 hxy]
      exact .inl ⟨r, hr, hy, hne⟩

/-! ### Values equal to a term -/

/-- The bound name is not one of the term, provided that the spare name for it is not. -/
theorem exactly_eq {t : Term} (h : boundName 1 ∉ t.freeVars) (base : BaseType) : ∃ n,
    exactly base t = refined base (boundName n) (.equal (.var (boundName n)) t) ∧ boundName n ∉ t.freeVars := by
  unfold exactly
  dsimp only
  split
  next => exact ⟨1, rfl, h⟩
  next h0 => exact ⟨0, rfl, by simpa using h0⟩

theorem admits_exactly {t : Term} (h : boundName 1 ∉ t.freeVars) (ht : t.denote ρ = some v) :
    (exactly v.base t).Admits ρ v := by
  obtain ⟨n, heq, hfree⟩ := exactly_eq h v.base
  rw [heq]
  refine ⟨rfl, Term.holds_equal.2 ⟨v, Valuation.set_self ρ _ v, ?_⟩⟩
  rw [← ht]
  refine Term.denote_congr fun x hx => Valuation.set_of_ne ρ ?_ v
  rintro rfl
  exact hfree hx

theorem mentions_exactly {base : BaseType} {t : Term} {x : String} (h : (exactly base t).Mentions x) :
    x ∈ t.freeVars := by
  obtain ⟨r, hr, hx, hne⟩ := h
  cases hr
  rcases Term.mem_freeVars_binary.1 hx with hx | hx
  · exact absurd (List.mem_singleton.1 hx) hne
  · exact hx

end RefinedType

end LayerCheck
