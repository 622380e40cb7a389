import Mathlib
import LayerCheck.Proofs.Refinement.Description
import LayerCheck.Proofs.Refinement.Steps

/-! The state of a check beside the store of a run. The check tracks the run if its scope describes some
values of the variables and temporaries, of which the variables have the values of the store. A type
check that succeeds then tells the truth about the run, and storing a value in a variable keeps track of it, as long
as the declared types that mention the variable still hold. -/
namespace LayerCheck.Liquid

open Canonical Scope

variable {σ : Type} {answer : Answerer σ} {declared : NameMap RefinedType} {st st' : State σ} {Γ : Bases}
variable {ρ ρ' ρ'' : Valuation} {store : Valuation}

/-- The scope of the check, in which some variables have given base types, describes values, among them those
of the store. -/
structure Tracks (answer : Answerer σ) (Γ : Bases) (st : State σ) (ρ store : Valuation) : Prop where
  scope : st.scope.Closed st.made
  covers : ∀ x b, Γ x = some b → ∃ w, st.scope.vars.get? x = some w ∧ w.ty.base = b
  describes : st.scope.Describes ρ
  store : ∀ x, Plain x → ρ x = store x
  solver : Truthful answer st.solver

/-- Two valuations differ only in temporaries that were not made before. -/
def AgreesBelow (made : Nat) (ρ ρ' : Valuation) : Prop := ∀ x, ρ' x = ρ x ∨ ∃ i, made ≤ i ∧ x = temporaryName i

namespace AgreesBelow

variable {made made' : Nat}

theorem refl (made : Nat) (ρ : Valuation) : AgreesBelow made ρ ρ := fun _ => .inl rfl

theorem trans (h : AgreesBelow made ρ ρ') (hmade : made ≤ made') (h' : AgreesBelow made' ρ' ρ'') :
    AgreesBelow made ρ ρ'' := by
  intro x
  rcases h' x with hx | ⟨i, hi, hx⟩
  · rw [hx]
    exact h x
  · exact .inr ⟨i, Nat.le_trans hmade hi, hx⟩

theorem set (made : Nat) (ρ : Valuation) (v : Value) : AgreesBelow made ρ (ρ.set (temporaryName made) v) := by
  intro x
  by_cases hx : x = temporaryName made
  · exact .inr ⟨made, Nat.le_refl made, hx⟩
  · exact .inl (Valuation.set_of_ne ρ hx v)

/-- The value of one more name may change in both. -/
theorem set_both (h : AgreesBelow made ρ ρ') (x : String) (v : Value) : AgreesBelow made (ρ.set x v) (ρ'.set x v) := by
  intro y
  rw [Valuation.set, Valuation.set]
  split
  · exact .inl rfl
  · exact h y

theorem eq_of_plain (h : AgreesBelow made ρ ρ') {x : String} (hx : Plain x) : ρ' x = ρ x := by
  rcases h x with h | ⟨i, -, rfl⟩
  · exact h
  · exact absurd hx (not_plain_temporaryName i)

theorem eq_of_names (h : AgreesBelow made ρ ρ') {s : Scope} (hs : s.Closed made) {x : String}
    (hx : s.Names made x) : ρ' x = ρ x := by
  rcases hx with hx | ⟨i, hi, rfl⟩
  · obtain ⟨w, hw⟩ := Option.isSome_iff_exists.1 hx
    exact h.eq_of_plain (hs.plain x w hw)
  · rcases h (temporaryName i) with h | ⟨j, hj, heq⟩
    · exact h
    · have := temporaryName_injective heq
      omega

/-- What is said of a value in a closed scope is said under either valuation. -/
theorem admits (h : AgreesBelow made ρ ρ') {s : Scope} (hs : s.Closed made) {x : String} {w : VariableType}
    (hx : s.vars.get? x = some w) {v : Value} (hv : w.ty.Admits ρ v) : w.ty.Admits ρ' v :=
  ⟨hv.1, hv.2 ▸ RefinedType.verdict_congr fun y hy => h.eq_of_names hs (hs.mentions x w hx y hy)⟩

/-- Declared types that still hold do so among later temporaries. -/
theorem survives (h : AgreesBelow made ρ ρ') {s s' : Scope} (hs : s.Closed made)
    (hvars : ∀ y ty, s'.vars.get? y = some ⟨ty, true⟩ → s.vars.get? y = some ⟨ty, true⟩) {x : String} {v : Value}
    (hsurvives : s.Survives ρ x v) : s'.Survives ρ' x v := by
  intro y ty u hy hm hu
  have hy := hvars y ty hy
  rw [h.eq_of_plain (hs.plain y _ hy)] at hu
  exact (h.set_both x v).admits hs hy (hsurvives y ty u hy hm hu)

end AgreesBelow

/-! ### Terms -/

/-- A term about what is in scope has a value. -/
structure Denotes (st : State σ) (ρ : Valuation) (t : Term) (v : Value) : Prop where
  value : t.denote ρ = some v
  names : ∀ x ∈ t.freeVars, st.scope.Names st.made x

/-- What an expression stands for is a value of the type that it stands for. -/
structure Means (st : State σ) (ρ : Valuation) (m : Meaning) (v : Value) : Prop where
  term : Denotes st ρ m.term v
  ty : m.ty.Admits ρ v

section

variable {t : Term} {v : Value}

/-- Terms keep their values when temporaries are added. -/
theorem Denotes.later (h : Denotes st ρ t v) (hs : st.scope.Closed st.made)
    (hρ : AgreesBelow st.made ρ ρ') (hvars : st'.scope.vars = st.scope.vars) (hmade : st.made ≤ st'.made) :
    Denotes st' ρ' t v := by
  refine ⟨?_, fun x hx => (h.names x hx).mono (fun y hy => hvars ▸ hy) hmade⟩
  rw [← h.value]
  exact Term.denote_congr fun x hx => hρ.eq_of_names hs (h.names x hx)

/-- A term keeps its value when the value of a variable moves to a temporary, which the term then names. -/
theorem Denotes.renamed (h : Denotes st ρ t v) (hs : st.scope.Closed st.made) {x : String}
    {w : VariableType} (hx : st.scope.vars.get? x = some w) {u : Value} (hu : ρ x = some u) :
    Denotes (st.retired x w) (ρ.set (temporaryName st.made) u) (t.rename x (temporaryName st.made)) v := by
  have hne : x ≠ temporaryName st.made := hs.names_ne_temporaryName (.inl (by rw [hx]; rfl))
  constructor
  · rw [denote_rename_of_eq (by rw [Valuation.set_self, Valuation.set_of_ne ρ hne, hu]), ← h.value]
    exact Term.denote_congr fun y hy => (AgreesBelow.set st.made ρ u).eq_of_names hs (h.names y hy)
  · intro y hy
    rcases Term.mem_freeVars_rename hy with rfl | ⟨hy, -⟩
    · exact .inr ⟨st.made, Nat.lt_succ_self _, rfl⟩
    · refine (h.names y hy).mono (fun z hz => ?_) (Nat.le_succ _)
      rw [State.retired, get?_vars_retire, Option.isSome_map]
      exact hz

theorem Denotes.unary {op : UnaryOp} {w : Value} (h : Denotes st ρ t v) (hw : v.unary? op = some w) :
    Denotes st ρ (.unary op t) w := by
  refine ⟨?_, h.names⟩
  rw [Term.denote, h.value]
  exact hw

theorem Denotes.binary {op : BinaryOp} {t' : Term} {v' w : Value} (h : Denotes st ρ t v)
    (h' : Denotes st ρ t' v') (hbase : v.base = v'.base) (hw : v.binary? op v' = some w) :
    Denotes st ρ (.binary op t t') w := by
  refine ⟨(Term.denote_binary h.value h'.value hbase).trans hw, fun x hx => ?_⟩
  exact (Term.mem_freeVars_binary.1 hx).elim (h.names x) (h'.names x)

theorem Denotes.exact (h : Denotes st ρ t v) (hs : st.scope.Closed st.made) :
    Means st ρ (.exact v.base t) v := by
  refine ⟨h, RefinedType.admits_exactly ?_ h.value⟩
  exact fun hmem => hs.not_names_boundName 0 (h.names _ hmem)

end

/-! ### Subtyping -/

namespace Tracks

/-- A check that changes no scope keeps track. -/
theorem later (h : Tracks answer Γ st ρ store) (hscope : st'.scope = st.scope) (hadv : Advances answer st st') :
    Tracks answer Γ st' ρ store where
  scope := hscope ▸ h.scope.mono hadv.made
  covers := hscope ▸ h.covers
  describes := hscope ▸ h.describes
  store := h.store
  solver := hadv.solver h.solver

theorem names (h : Tracks answer Γ st ρ store) {x : String} (hx : (Γ x).isSome) : st.scope.Names st.made x := by
  obtain ⟨b, hb⟩ := Option.isSome_iff_exists.1 hx
  obtain ⟨w, hw, -⟩ := h.covers x b hb
  exact .inl (by rw [hw]; rfl)

theorem plain (h : Tracks answer Γ st ρ store) {x : String} (hx : (Γ x).isSome) : Plain x := by
  obtain ⟨b, hb⟩ := Option.isSome_iff_exists.1 hx
  obtain ⟨w, hw, -⟩ := h.covers x b hb
  exact h.scope.plain x w hw

theorem fits (h : Tracks answer Γ st ρ store) : ρ.Fits Γ := by
  intro x b hx
  obtain ⟨w, hw, rfl⟩ := h.covers x b hx
  obtain ⟨v, hv, hadmits⟩ := h.describes.vars x w hw
  exact ⟨v, hv, hadmits.1⟩

/-- A value that passes a check belongs to the type expected, if the type has a verdict on it at all. -/
theorem admits (h : Tracks answer Γ st ρ store) {actual : Meaning} {v : Value} (hm : Means st ρ actual v)
    {expected : RefinedType} (hverdict : v.base = expected.base → ∃ b, expected.verdict ρ v = some (.bool b))
    {text : String} {loc : Location} {u : Unit}
    (hsub : Gives (checkSubtype answer actual expected text loc) st u st') : expected.Admits ρ v := by
  obtain ⟨hbase, ⟨hnone, -⟩ | ⟨q, hq, hyes, -⟩⟩ := gives_checkSubtype hsub
  · refine ⟨hm.ty.1.trans hbase, ?_⟩
    rw [RefinedType.verdict, hnone]
  · have hvalid := h.solver.valid (nodup_query hq) hyes
    have hpremise : (actual.ty.predicateFor actual.term).Holds ρ :=
      (RefinedType.denote_predicateFor hm.term.value).trans hm.ty.2
    obtain ⟨b, hb⟩ := hverdict (hm.ty.1.trans hbase)
    rw [← RefinedType.denote_predicateFor hm.term.value] at hb
    have hassumed := h.describes.holds_assumptions h.scope.sorted hpremise
    have hconclusion := holds_of_query hq hvalid h.describes.fits hassumed hb
    exact ⟨hm.ty.1.trans hbase, (RefinedType.denote_predicateFor hm.term.value).symm.trans hconclusion⟩

/-- A value in a new temporary, with a fact about it. -/
theorem addTemporary (h : Tracks answer Γ st ρ store) {base : BaseType} {fact : Term} {v : Value}
    (hbase : v.base = base) (hnames : ∀ x ∈ fact.freeVars, st.scope.Names (st.made + 1) x)
    (hfact : fact.Holds (ρ.set (temporaryName st.made) v)) :
    Tracks answer Γ { st with
      made := st.made + 1, scope := st.scope.addTemporary ⟨temporaryName st.made, base, fact⟩ }
      (ρ.set (temporaryName st.made) v) store where
  scope := (h.scope.mono (Nat.le_succ _)).addTemporary ⟨st.made, Nat.lt_succ_self _, rfl⟩ hnames
  covers := h.covers
  describes := (h.describes.set_temporary h.scope v).addTemporary ⟨v, Valuation.set_self ρ _ v, hbase⟩ hfact
  store x hx := ((AgreesBelow.set st.made ρ v).eq_of_plain hx).trans (h.store x hx)
  solver := h.solver

end Tracks

/-! ### Assignments -/

/-- The base types of declared variables. -/
def basesOf (declared : NameMap RefinedType) : Bases := fun x => (declared.get? x).map (·.base)

/-- The check tracks code with given declared variables. -/
structure Follows (answer : Answerer σ) (declared : NameMap RefinedType) (st : State σ) (ρ store : Valuation) :
    Prop where
  scope : st.scope.WellFormed declared st.made
  describes : st.scope.Describes ρ
  store : ∀ x, Plain x → ρ x = store x
  solver : Truthful answer st.solver

namespace Follows

theorem tracks (h : Follows answer declared st ρ store) : Tracks answer (basesOf declared) st ρ store where
  scope := h.scope.toClosed
  covers x b hx := by
    obtain ⟨ty, hty, rfl⟩ := Option.map_eq_some_iff.1 hx
    exact ⟨_, (h.scope.declared_iff x ty).1 hty, rfl⟩
  describes := h.describes
  store := h.store
  solver := h.solver

/-- A check that only adds temporaries keeps track if it does so apart from declared variables. -/
theorem of_tracks (h : Follows answer declared st ρ store) (hadds : Adds st st')
    (ht : Tracks answer (basesOf declared) st' ρ' store) : Follows answer declared st' ρ' store where
  scope := h.scope.of_closed hadds.vars ht.scope
  describes := ht.describes
  store := ht.store
  solver := ht.solver

theorem later (h : Follows answer declared st ρ store) (hscope : st'.scope = st.scope)
    (hadv : Advances answer st st') : Follows answer declared st' ρ store where
  scope := hscope ▸ h.scope.of_closed rfl (h.scope.toClosed.mono hadv.made)
  describes := hscope ▸ h.describes
  store := h.store
  solver := hadv.solver h.solver

/-- Moving the value of a variable to a temporary keeps track. -/
theorem retired (h : Follows answer declared st ρ store) {x : String} {w : VariableType} {v : Value}
    (hx : st.scope.vars.get? x = some w) (hv : ρ x = some v) :
    Follows answer declared (st.retired x w) (ρ.set (temporaryName st.made) v) store where
  scope := h.scope.retire hx
  describes := h.describes.retire h.scope hx hv
  store y hy := ((AgreesBelow.set st.made ρ v).eq_of_plain hy).trans (h.store y hy)
  solver := h.solver

theorem survives_retired (h : Follows answer declared st ρ store) {x : String} {v : Value}
    (hsurvives : st.scope.Survives ρ x v) (w : VariableType) (u : Value) :
    (st.retired x w).scope.Survives (ρ.set (temporaryName st.made) u) x v :=
  (AgreesBelow.set st.made ρ u).survives h.scope.toClosed (fun _ _ => declared_retire.1) hsurvives

theorem store_set (h : Follows answer declared st ρ store) (x : String) (v : Value) :
    ∀ y, Plain y → ρ.set x v y = store.set x v y := by
  intro y hy
  rw [Valuation.set, Valuation.set, h.store y hy]

/-- A declared variable of which nothing is known but its type gets a value of the type. -/
theorem assign (h : Follows answer declared st ρ store) {x : String} (hx : st.scope.Silent x) {v : Value}
    (hsurvives : st.scope.Survives ρ x v) {w : VariableType} (hw : st.scope.vars.get? x = some w)
    (hv : w.ty.Admits (ρ.set x v) v) :
    Follows answer declared st (ρ.set x v) (store.set x v) where
  scope := h.scope
  describes := by
    refine h.describes.assign hx hsurvives (fun y w' hy => ?_) rfl rfl
    by_cases hyx : y = x
    · subst hyx
      cases hw.symm.trans hy
      exact .inl ⟨rfl, hv⟩
    · exact .inr ⟨hyx, hy⟩
  store := h.store_set x v
  solver := h.solver

/-- A variable of which nothing is known gets a value together with a term for it. -/
theorem introduced (h : Follows answer declared st ρ store) {x : String} (hplain : Plain x)
    (hx : st.scope.Silent x) {v : Value} (hsurvives : st.scope.Survives ρ x v)
    (hundeclared : ∀ w, st.scope.vars.get? x = some w → w.declared = false) {t : Term} (ht : Denotes st ρ t v)
    (hfree : x ∉ t.freeVars) :
    Follows answer declared (st.introduced x v.base t) (ρ.set x v) (store.set x v) where
  scope := by
    refine h.scope.introduce hplain hundeclared (fun y hy => ⟨?_, ht.names y hy⟩) v.base
    rintro rfl
    exact hfree hy
  describes := by
    have hvalue : t.denote (ρ.set x v) = some v := by
      rw [← ht.value]
      refine Term.denote_congr fun y hy => Valuation.set_of_ne ρ ?_ v
      rintro rfl
      exact hfree hy
    have hspare : boundName 1 ∉ t.freeVars := fun hmem => h.scope.not_names_boundName 0 (ht.names _ hmem)
    refine h.describes.assign hx hsurvives (fun y w hy => ?_) rfl rfl
    rcases get?_introduce hy with ⟨hyx, rfl⟩ | hy
    · exact .inl ⟨hyx, RefinedType.admits_exactly hspare hvalue⟩
    · exact .inr hy
  store := h.store_set x v
  solver := h.solver

end Follows

end LayerCheck.Liquid
