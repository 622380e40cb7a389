import Mathlib
import LayerCheck.Proofs.Refinement.Execution
import LayerCheck.Proofs.Refinement.Tracking

/-! Soundness of the check for straight-line code: along every run of code that passes the check, the
check tracks the run, every argument belongs to the type of its parameter and every value stored in a
declared variable to the type of the variable. -/
namespace LayerCheck.Liquid

open Canonical

variable {σ : Type} {answer : Answerer σ} {declared : NameMap RefinedType} {st st' : State σ} {Γ : Bases}
variable {ρ ρ' store : Valuation}

/-- Declared types with typed predicates: those of variables are about nothing else, those of functions about
positional arguments and declared variables. -/
structure Typed (declared : NameMap RefinedType) (functions : NameMap Signature) : Prop where
  plain : ∀ x ty, declared.get? x = some ty → Plain x
  vars : ∀ x ty, declared.get? x = some ty → ty.WellTyped fun _ => none
  functions : ∀ f s, functions.get? f = some s → s.Positional (basesOf declared)

namespace Typed

variable {functions : NameMap Signature} {x : String} {ty : RefinedType}

theorem not_mentions (hd : Typed declared functions) (hx : declared.get? x = some ty) (y : String) :
    ¬ ty.Mentions y :=
  fun hy => (by cases (hd.vars x ty hx).bound hy)

theorem wellTyped (hd : Typed declared functions) (hx : declared.get? x = some ty) (Γ : Bases) : ty.WellTyped Γ :=
  (hd.vars x ty hx).mono fun y b hb => (by cases hb)

/-- What belongs to a declared type does so wherever the type is read. -/
theorem admits (hd : Typed declared functions) (hx : declared.get? x = some ty) {v : Value} (h : ty.Admits ρ v)
    (ρ' : Valuation) : ty.Admits ρ' v :=
  ⟨h.1, h.2 ▸ RefinedType.verdict_congr fun y hy => absurd hy (hd.not_mentions hx y)⟩

end Typed

/-! ### Arguments -/

/-- Terms by the positional names of the first arguments of a call, about names of some kind. -/
structure Supplies (N : String → Prop) (terms : NameMap Term) (count : Nat) : Prop where
  found : ∀ x t, terms.get? x = some t → (∃ i < count, x = nameAt i) ∧ ∀ y ∈ t.freeVars, N y
  all : ∀ i < count, (terms.get? (nameAt i)).isSome

namespace Supplies

variable {N N' : String → Prop} {terms : NameMap Term} {count : Nat}

theorem nil (N : String → Prop) : Supplies N [] 0 := ⟨fun x t h => (by cases h), fun i h => (by cases h)⟩

theorem mono (h : Supplies N terms count) (hN : ∀ x, N x → N' x) : Supplies N' terms count := by
  refine ⟨fun x t hx => ?_, h.all⟩
  obtain ⟨hi, ht⟩ := h.found x t hx
  exact ⟨hi, fun y hy => hN y (ht y hy)⟩

theorem insert (h : Supplies N terms count) {t : Term} (ht : ∀ y ∈ t.freeVars, N y) :
    Supplies N (terms.insert (nameAt count) t) (count + 1) := by
  constructor
  · intro x t' hx
    rw [NameMap.get?_insert] at hx
    split at hx
    next hxn =>
      cases hx
      exact ⟨⟨count, Nat.lt_succ_self _, hxn⟩, ht⟩
    next =>
      obtain ⟨⟨i, hi, hxi⟩, ht'⟩ := h.found x t' hx
      exact ⟨⟨i, Nat.lt_succ_of_lt hi, hxi⟩, ht'⟩
  · intro i hi
    rw [NameMap.get?_insert]
    split
    next => rfl
    next hne => exact h.all i (Nat.lt_of_le_of_ne (Nat.le_of_lt_succ hi) fun heq => hne (congrArg nameAt heq))

theorem get?_boundName (h : Supplies N terms count) (n : Nat) : terms.get? (boundName n) = none := by
  cases hn : terms.get? (boundName n) with
  | none => rfl
  | some t =>
    obtain ⟨⟨i, -, heq⟩, -⟩ := h.found _ t hn
    exact absurd heq (boundName_ne_nameAt n i)

/-- A type about arguments and names of that kind mentions such names alone when terms for the arguments are put
in. -/
theorem names_subst (h : Supplies N terms count) {ty : RefinedType}
    (hty : ∀ x, ty.Mentions x → (∃ i < count, x = nameAt i) ∨ N x) {x : String} (hx : (ty.subst terms).Mentions x) :
    N x := by
  obtain ⟨y, hy, hxy⟩ := RefinedType.mentions_subst h.get?_boundName hx
  cases hterm : terms.get? y with
  | some t =>
    rw [hterm] at hxy
    exact (h.found y t hterm).2 x hxy
  | none =>
    rw [hterm] at hxy
    obtain rfl := List.mem_singleton.1 hxy
    refine (hty x hy).resolve_left ?_
    rintro ⟨i, hi, rfl⟩
    have hsome := h.all i hi
    rw [hterm] at hsome
    cases hsome

end Supplies

/-- Terms by positional names that have the values of some arguments. -/
structure Fills (st : State σ) (ρ : Valuation) (terms : NameMap Term) (args : List Value) : Prop where
  found : ∀ x t, terms.get? x = some t → ∃ v, slot? 0 args x = some v ∧ Denotes st ρ t v
  other : ∀ x, terms.get? x = none → slot? 0 args x = none

namespace Fills

variable {terms : NameMap Term} {args : List Value}

theorem nil (st : State σ) (ρ : Valuation) : Fills st ρ [] [] := ⟨fun x t h => (by cases h), fun x _ => rfl⟩

theorem later (h : Fills st ρ terms args) (hs : st.scope.Closed st.made)
    (hρ : AgreesBelow st.made ρ ρ') (hvars : st'.scope.vars = st.scope.vars) (hmade : st.made ≤ st'.made) :
    Fills st' ρ' terms args := by
  refine ⟨fun x t hx => ?_, h.other⟩
  obtain ⟨v, hv, ht⟩ := h.found x t hx
  exact ⟨v, hv, ht.later hs hρ hvars hmade⟩

theorem insert (h : Fills st ρ terms args) {t : Term} {v : Value} (ht : Denotes st ρ t v) :
    Fills st ρ (terms.insert (nameAt args.length) t) (args ++ [v]) := by
  constructor
  · intro x t' hx
    rw [NameMap.get?_insert] at hx
    rw [slot?_append_singleton, Nat.zero_add]
    split at hx
    next hxn =>
      cases hx
      exact ⟨v, if_pos hxn, ht⟩
    next hxn =>
      rw [if_neg hxn]
      exact h.found x t' hx
  · intro x hx
    rw [NameMap.get?_insert] at hx
    rw [slot?_append_singleton, Nat.zero_add]
    split at hx
    next => cases hx
    next hxn =>
      rw [if_neg hxn]
      exact h.other x hx

theorem pulled (h : Fills st ρ terms args) : Term.pulled ρ terms.get? = ρ.withArgs args := by
  funext x
  rw [Term.pulled, Valuation.withArgs]
  cases hx : terms.get? x with
  | none =>
    rw [h.other x hx]
    rfl
  | some t =>
    obtain ⟨v, hv, ht⟩ := h.found x t hx
    rw [hv]
    exact ht.value

theorem supplies (h : Fills st ρ terms args) : Supplies (st.scope.Names st.made) terms args.length := by
  constructor
  · intro x t hx
    obtain ⟨v, hv, ht⟩ := h.found x t hx
    obtain ⟨i, hi, hxi⟩ := slot?_eq_some hv
    rw [Nat.zero_add] at hxi
    exact ⟨⟨i, (List.getElem?_eq_some_iff.1 hi).1, hxi⟩, ht.names⟩
  · intro i hi
    rw [← Option.ne_none_iff_isSome]
    intro hnone
    have hslot := slot?_nameAt 0 args i
    rw [Nat.zero_add, h.other _ hnone, List.getElem?_eq_getElem hi] at hslot
    cases hslot

/-- A type with the terms put in says of a value what it says for the arguments. -/
theorem verdict_subst (h : Fills st ρ terms args) (ty : RefinedType) (v : Value) :
    (ty.subst terms).verdict ρ v = ty.verdict (ρ.withArgs args) v := by
  rw [RefinedType.verdict_subst h.supplies.get?_boundName, h.pulled]

end Fills

theorem verdict_withArgs (hstore : ∀ x, Plain x → ρ x = store x) {args : List Value} {ty : RefinedType}
    (hm : ∀ x, ty.Mentions x → (∃ i < args.length, x = nameAt i) ∨ Plain x) (v : Value) :
    ty.verdict (ρ.withArgs args) v = ty.verdict (store.withArgs args) v := by
  refine RefinedType.verdict_congr fun x hx => ?_
  rw [Valuation.withArgs, Valuation.withArgs]
  rcases hm x hx with ⟨i, hi, rfl⟩ | hx
  · have hslot := slot?_nameAt 0 args i
    rw [Nat.zero_add, List.getElem?_eq_getElem hi] at hslot
    rw [hslot]
    rfl
  · rw [hstore x hx]

/-! ### Expressions -/

theorem base_of_expectBase {m : Meaning} {base : BaseType} {loc : Location} {u : Unit}
    (h : expectBase m base loc = .ok u) : m.ty.base = base := by
  unfold expectBase at h
  split at h
  next hbase => exact hbase
  next => cases h

/-- An operation is on two operands of one base type, for which it has a result. -/
theorem base_of_binaryBase {op : BinaryOp} {l r : Meaning × Location} {base : BaseType}
    (h : binaryBase op l r = .ok base) :
    l.1.ty.base = r.1.ty.base ∧ op.resultOn? r.1.ty.base = some base := by
  unfold binaryBase at h
  split at h
  next hop =>
    obtain ⟨_, hl, h⟩ := bind_eq_ok.1 h
    obtain ⟨_, hr, h⟩ := bind_eq_ok.1 h
    cases h
    rw [base_of_expectBase hl, base_of_expectBase hr]
    cases op with
    | add | sub | mul => exact ⟨rfl, rfl⟩
    | eq | ne | lt | le | gt | ge | and | or => cases hop
  next harith =>
    split at h
    next hop =>
      obtain ⟨_, hl, h⟩ := bind_eq_ok.1 h
      obtain ⟨_, hr, h⟩ := bind_eq_ok.1 h
      cases h
      rw [base_of_expectBase hl, base_of_expectBase hr]
      cases op with
      | and | or => exact ⟨rfl, rfl⟩
      | add | sub | mul | eq | ne | lt | le | gt | ge => cases hop
    next hlogical =>
      split at h
      next hop =>
        obtain ⟨_, hr, h⟩ := bind_eq_ok.1 h
        cases h
        rw [base_of_expectBase hr]
        rcases hop with rfl | rfl <;> cases l.1.ty.base <;> exact ⟨rfl, rfl⟩
      next hequality =>
        obtain ⟨_, hl, h⟩ := bind_eq_ok.1 h
        obtain ⟨_, hr, h⟩ := bind_eq_ok.1 h
        cases h
        rw [base_of_expectBase hl, base_of_expectBase hr]
        refine ⟨rfl, ?_⟩
        cases op with
        | lt | le | gt | ge => rfl
        | add | sub | mul => exact absurd rfl harith
        | and | or => exact absurd rfl hlogical
        | eq => exact absurd (.inl rfl) hequality
        | ne => exact absurd (.inr rfl) hequality

theorem gives_signatureFor {ctx : Context} {function : String} {count : Nat} {loc : Location} {s : Signature}
    (h : signatureFor ctx function count loc = .ok s) :
    ctx.functions.get? function = some s ∧ s.args.length = count := by
  unfold signatureFor at h
  split at h
  next => cases h
  next s' hs =>
    split at h
    next => cases h
    next hcount =>
      cases h
      exact ⟨hs, Classical.not_not.1 hcount⟩

variable {ctx : Context}

/-- An argument that passes its check belongs to the type of the parameter, given the earlier arguments. -/
theorem Tracks.argument (ht : Tracks answer Γ st ρ store) {actual : Meaning} {v : Value}
    (hv : Means st ρ actual v) {earlier : NameMap Term} {args : List Value} (hf : Fills st ρ earlier args)
    {param : RefinedType} (hparam : param.WellTyped (Γ.withArgs (args.map Value.base))) {text : String}
    {loc : Location} {u : Unit} (hsub : Gives (checkSubtype answer actual (param.subst earlier) text loc) st u st') :
    param.Admits (store.withArgs args) v := by
  have hverdict : v.base = (param.subst earlier).base →
      ∃ b, (param.subst earlier).verdict ρ v = some (.bool b) := by
    intro hbase
    rw [hf.verdict_subst]
    refine RefinedType.verdict_eq_bool hparam (ht.fits.withArgs args) ?_
    exact hbase.trans (RefinedType.base_subst earlier param)
  have hadmits := ht.admits hv hverdict hsub
  refine ⟨hadmits.1.trans (RefinedType.base_subst earlier param), ?_⟩
  rw [← verdict_withArgs ht.store, ← hf.verdict_subst, hadmits.2]
  intro x hx
  rw [← List.length_map Value.base]
  exact (hparam.mentions hx).imp_right ht.plain

/-- What a call returns becomes a temporary. -/
theorem Tracks.returned (ht : Tracks answer Γ st ρ store) {s : Signature} (hpos : s.Positional Γ)
    {terms : NameMap Term} {args : List Value} (hf : Fills st ρ terms args) (hlen : args.length = s.args.length)
    (left : List Value) :
    (s.returned store args left).Ensures (Event.Safe declared ctx.functions) fun v => ∃ ρ',
      AgreesBelow st.made ρ ρ' ∧
      let st' := { st with
        made := st.made + 1
        scope := st.scope.addTemporary ⟨temporaryName st.made, (s.ret.subst terms).base,
          (s.ret.subst terms).predicateFor (.var (temporaryName st.made))⟩ }
      Tracks answer Γ st' ρ' store ∧ Means st' ρ' ⟨s.ret.subst terms, .var (temporaryName st.made)⟩ v := by
  cases left with
  | nil => exact Progress.ensures_ofOption fun v hv => (by cases hv)
  | cons v left =>
    refine Progress.ensures_ofOption fun u hu => ?_
    split at hu
    next hadmits =>
      cases hu
      have hρ := AgreesBelow.set st.made ρ v
      have hbase : v.base = (s.ret.subst terms).base := hadmits.1.trans (RefinedType.base_subst terms s.ret).symm
      have hverdict : (s.ret.subst terms).verdict (ρ.set (temporaryName st.made) v) v = some (.bool true) := by
        have hf' : Fills { st with made := st.made + 1 } (ρ.set (temporaryName st.made) v) terms args :=
          hf.later ht.scope hρ rfl (Nat.le_succ _)
        rw [hf'.verdict_subst, verdict_withArgs (fun x hx => (hρ.eq_of_plain hx).trans (ht.store x hx)), hadmits.2]
        intro x hx
        rw [hlen]
        exact (hpos.ret x hx).imp_right ht.plain
      have hnew : st.scope.Names (st.made + 1) (temporaryName st.made) := .inr ⟨st.made, Nat.lt_succ_self _, rfl⟩
      have hself := Valuation.set_self ρ (temporaryName st.made) v
      refine ⟨_, hρ, ht.addTemporary hbase (fun x hx => ?_) ?_, ⟨hself, fun x hx => ?_⟩, hbase, hverdict⟩
      · rcases RefinedType.mem_freeVars_predicateFor hx with hx | hx
        · refine (hf.supplies.names_subst (fun y hy => ?_) hx).mono (fun _ => id) (Nat.le_succ _)
          rw [hlen]
          exact (hpos.ret y hy).imp_right ht.names
        · rw [List.mem_singleton.1 hx]
          exact hnew
      · exact (RefinedType.denote_predicateFor_var hself).trans hverdict
      · rw [List.mem_singleton.1 hx]
        exact hnew
    next => cases hu

/-- The functions called in some expressions have signatures over variables of given base types. -/
def CallsOver (functions : NameMap Signature) (Γ : Bases) (steps : List Expr) : Prop :=
  ∀ loc f args s, .call loc f args ∈ steps → functions.get? f = some s → s.Positional Γ

theorem CallsOver.mono {functions : NameMap Signature} {steps steps' : List Expr}
    (h : CallsOver functions Γ steps) (hsub : steps' ⊆ steps) : CallsOver functions Γ steps' :=
  fun loc f args s hmem => h loc f args s (hsub hmem)

mutual

theorem meaning_sound (e : Expr) (hd : CallsOver ctx.functions Γ e.steps) {st st' : State σ} {m : Meaning}
    (h : Gives (meaning answer ctx e) st m st') {ρ : Valuation} (ht : Tracks answer Γ st ρ store)
    (left : List Value) :
    (e.run ctx.functions store left).Ensures (Event.Safe declared ctx.functions) fun v =>
      ∃ ρ', AgreesBelow st.made ρ ρ' ∧ Tracks answer Γ st' ρ' store ∧ Means st' ρ' m v := by
  cases e with
  | num loc n =>
    rw [meaning, gives_pure] at h
    obtain ⟨rfl, rfl⟩ := h
    have hn : Denotes st ρ (.int n) (.int n) := ⟨rfl, fun x hx => (by cases hx)⟩
    exact Progress.ensures_done ⟨ρ, .refl _ ρ, ht, hn.exact ht.scope⟩
  | bool loc b =>
    rw [meaning, gives_pure] at h
    obtain ⟨rfl, rfl⟩ := h
    have hb : Denotes st ρ (.bool b) (.bool b) := ⟨rfl, fun x hx => (by cases hx)⟩
    exact Progress.ensures_done ⟨ρ, .refl _ ρ, ht, hb.exact ht.scope⟩
  | ident loc x =>
    simp only [meaning, gives_bind, gives_getScope] at h
    obtain ⟨_, _, ⟨rfl, rfl⟩, h⟩ := h
    split at h
    next w hx =>
      obtain ⟨rfl, rfl⟩ := gives_pure.1 h
      obtain ⟨v, hv, hadmits⟩ := ht.describes.vars x w hx
      refine Progress.ensures_ofOption fun u hu => ?_
      rw [← ht.store x (ht.scope.plain x w hx), hv] at hu
      cases hu
      refine ⟨ρ, .refl _ ρ, ht, ⟨hv, fun y hy => ?_⟩, hadmits⟩
      rw [List.mem_singleton.1 hy]
      exact .inl (by rw [hx]; rfl)
    next => exact absurd h gives_throw
  | call loc callee args =>
    simp only [meaning, gives_bind, gives_ofExcept, gives_freshTemporary, gives_modifyScope, gives_pure] at h
    obtain ⟨s, _, ⟨hs, rfl⟩, terms, st₁, hargs, _, _, ⟨rfl, rfl⟩, _, _, rfl, rfl, rfl⟩ := h
    obtain ⟨hs, hcount⟩ := gives_signatureFor hs
    rw [Expr.run]
    have hpos := hd loc callee args s List.mem_cons_self hs
    refine (checkArgs_sound args (hd.mono (List.subset_cons_self _ _)) [] hargs ht (.nil st ρ) hs rfl ?_ hpos.args
      left).andThen ?_
    · rw [hcount, List.length_nil, Nat.zero_add]
    · rintro vs left ⟨hvs, ρ₁, hρ₁, ht₁, hf⟩
      rw [hs]
      refine (ht₁.returned hpos hf hvs left).imp fun v => ?_
      rintro ⟨ρ₂, hρ₂, ht₂⟩
      exact ⟨ρ₂, hρ₁.trans (advances_checkArgs args hargs).2.made hρ₂, ht₂⟩
  | binary loc op l r =>
    simp only [meaning, gives_bind, gives_ofExcept, gives_pure] at h
    obtain ⟨ml, st₁, hl, mr, st₂, hr, base, _, ⟨hbase, rfl⟩, rfl, rfl⟩ := h
    obtain ⟨hsame, hop⟩ := base_of_binaryBase hbase
    rw [Expr.run]
    refine (meaning_sound l (hd.mono fun s hs => List.mem_cons_of_mem _ (List.mem_append_left _ hs)) hl ht
      left).andThen ?_
    rintro a left ⟨ρ₁, hρ₁, ht₁, ha⟩
    refine (meaning_sound r (hd.mono fun s hs => List.mem_cons_of_mem _ (List.mem_append_right _ hs)) hr ht₁
      left).andThen ?_
    rintro b left ⟨ρ₂, hρ₂, ht₂, hb⟩
    refine Progress.ensures_ofOption fun v hv => ?_
    obtain ⟨hadds, hadv⟩ := advances_meaning r hr
    have ha' := ha.term.later ht₁.scope hρ₂ hadds.vars hadv.made
    have hbases : a.base = b.base := by rw [ha.ty.1, hb.ty.1, hsame]
    obtain ⟨w, hw, hwbase⟩ := Value.binary?_base hop (hbases.trans hb.ty.1) hb.ty.1
    rw [hv] at hw
    cases hw
    have hterm := ha'.binary hb.term hbases hv
    exact ⟨ρ₂, hρ₁.trans (advances_meaning l hl).2.made hρ₂, ht₂, hwbase ▸ hterm.exact ht₂.scope⟩
  | unary loc op e =>
    simp only [meaning, gives_bind, gives_ofExcept, gives_pure] at h
    obtain ⟨inner, st₁, he, _, _, ⟨hbase, rfl⟩, rfl, rfl⟩ := h
    rw [Expr.run]
    refine (meaning_sound e (hd.mono (List.subset_cons_self _ _)) he ht left).andThen ?_
    rintro a left ⟨ρ₁, hρ₁, ht₁, ha⟩
    refine Progress.ensures_ofOption fun v hv => ?_
    have hbase : inner.ty.base = op.base := by
      rw [base_of_expectBase hbase]
      cases op <;> rfl
    obtain ⟨w, hw, hwbase⟩ := Value.unary?_base (ha.ty.1.trans hbase)
    rw [hv] at hw
    cases hw
    have hterm := ha.term.unary hv
    have hunary : unaryBase op = v.base := by
      rw [hwbase]
      cases op <;> rfl
    exact ⟨ρ₁, hρ₁, ht₁, hunary ▸ hterm.exact ht₁.scope⟩
  | malformed loc kind =>
    rw [meaning] at h
    exact absurd h gives_throw

theorem checkArgs_sound (es : List Expr) (hd : CallsOver ctx.functions Γ (Expr.stepsAll es)) (args : List Value)
    {st st' : State σ} {earlier terms : NameMap Term} {params : List RefinedType}
    (h : Gives (checkArgs answer ctx args.length earlier es params) st terms st') {ρ : Valuation}
    (ht : Tracks answer Γ st ρ store) (hf : Fills st ρ earlier args) {callee : String} {s : Signature}
    (hs : ctx.functions.get? callee = some s) (hparams : s.args.drop args.length = params)
    (hcount : args.length + es.length = s.args.length)
    (htyped : Signature.PositionalFrom Γ (args.map Value.base) params) (left : List Value) :
    (Expr.runArgs ctx.functions store callee args es left).Ensures (Event.Safe declared ctx.functions) fun vs =>
      vs.length = s.args.length ∧ ∃ ρ', AgreesBelow st.made ρ ρ' ∧ Tracks answer Γ st' ρ' store ∧
        Fills st' ρ' terms vs := by
  match es, params with
  | [], params =>
    rw [checkArgs, gives_pure] at h
    · obtain ⟨rfl, rfl⟩ := h
      exact Progress.ensures_done ⟨hcount, ρ, .refl _ ρ, ht, hf⟩
    · rintro _ _ _ _ ⟨⟩
  | e :: es, [] =>
    have hle := List.drop_eq_nil_iff.1 hparams
    rw [List.length_cons] at hcount
    omega
  | e :: es, param :: params =>
    simp only [checkArgs, gives_bind] at h
    obtain ⟨actual, st₁, he, _, st₂, hsub, h⟩ := h
    obtain ⟨hparam, htyped⟩ := htyped
    rw [Expr.runArgs]
    refine (meaning_sound e (hd.mono (List.subset_append_left _ _)) he ht left).andThen ?_
    rintro v left ⟨ρ₁, hρ₁, ht₁, hv⟩
    obtain ⟨hadds, hadv⟩ := advances_meaning e he
    obtain ⟨hscope, -, hadv'⟩ := advances_checkSubtype hsub
    have hf₁ := hf.later ht.scope hρ₁ hadds.vars hadv.made
    have hadmits := ht₁.argument hv hf₁ hparam hsub
    have hget : s.args[args.length]? = some param := by
      rw [← List.head?_drop, hparams, List.head?_cons]
    have hf₂ := (hf₁.insert hv.term).later ht₁.scope (.refl st₁.made ρ₁) (congrArg _ hscope) hadv'.made
    have hlength : (args ++ [v]).length = args.length + 1 := List.length_append
    rw [← hlength] at h
    refine Progress.Ensures.after ⟨s, param, hs, hget, hadmits⟩ ?_
    have hrest := hd.mono (List.subset_append_right _ _)
    refine (checkArgs_sound es hrest (args ++ [v]) h (ht₁.later hscope hadv') hf₂ hs ?_ ?_ ?_ left).imp ?_
    · rw [hlength, ← List.drop_drop, hparams]
      rfl
    · rw [hlength, ← hcount, List.length_cons]
      omega
    · rw [List.map_append, List.map_singleton, hadmits.1]
      exact htyped
    · rintro vs ⟨hvs, ρ₂, hρ₂, h₂⟩
      exact ⟨hvs, ρ₂, hρ₁.trans (Nat.le_trans hadv.made hadv'.made) hρ₂, h₂⟩

end

/-! ### Statements -/

theorem Typed.callsOver {functions : NameMap Signature} (hd : Typed declared functions) (steps : List Expr) :
    CallsOver functions (basesOf declared) steps :=
  fun _ f _ s _ hs => hd.functions f s hs

/-- A value stored in a declared variable is of its type, and the variable keeps that type. -/
theorem Follows.store_declared (ht : Follows answer declared st ρ store) {x : String} {ty : RefinedType}
    (hty : ty.WellTyped (basesOf declared)) (hself : ¬ ty.Mentions x) (hx : st.scope.vars.get? x = some ⟨ty, true⟩)
    {actual : Meaning} {v : Value} (hv : Means st ρ actual v) (hsurvives : st.scope.Survives ρ x v)
    {text : String} {loc : Location} (hsub : Gives (checkSubtype answer actual ty text loc) st () st') :
    ty.Admits ρ v ∧ ∃ ρ', AgreesBelow st.made (ρ.set x v) ρ' ∧
      Follows answer declared (st'.retired x ⟨ty, true⟩) ρ' (store.set x v) := by
  obtain ⟨hscope, -, hadv⟩ := advances_checkSubtype hsub
  have hadmits := ht.tracks.admits hv (RefinedType.verdict_eq_bool hty ht.tracks.fits) hsub
  have ht' := ht.later hscope hadv
  rw [← hscope] at hx hsurvives
  obtain ⟨u, hu, -⟩ := ht'.describes.vars x _ hx
  have hkept : (st'.retired x ⟨ty, true⟩).scope.vars.get? x = some ⟨ty, true⟩ := by
    rw [State.retired, Scope.get?_vars_retire, hx]
    rfl
  -- the type mentions neither the variable nor the new temporary
  have hadmits' : ty.Admits ((ρ.set (temporaryName st'.made) u).set x v) v := by
    refine ⟨hadmits.1, hadmits.2 ▸ RefinedType.verdict_congr fun y hy => ?_⟩
    have hyx : y ≠ x := by
      rintro rfl
      exact hself hy
    rw [Valuation.set_of_ne _ hyx,
      Valuation.set_of_ne _ (ht'.scope.names_ne_temporaryName (ht'.scope.mentions x _ hx y hy))]
  have hbelow := (AgreesBelow.refl st.made ρ).trans hadv.made (.set st'.made ρ u)
  exact ⟨hadmits, _, hbelow.set_both x v, (ht'.retired hx hu).assign (ht'.scope.toClosed.silent_retire hx hself)
    (ht'.survives_retired hsurvives _ u) hkept hadmits'⟩

theorem Follows.store_known (ht : Follows answer declared st ρ store) {x : String} (hplain : Plain x)
    {w : VariableType} (hx : st.scope.vars.get? x = some w) (hw : w.declared = false) {actual : Meaning} {v : Value}
    (hv : Means st ρ actual v) (hsurvives : st.scope.Survives ρ x v) :
    ∃ ρ', AgreesBelow st.made (ρ.set x v) ρ' ∧ Follows answer declared ((st.retired x w).introduced x actual.ty.base
      (actual.term.rename x (temporaryName st.made))) ρ' (store.set x v) := by
  obtain ⟨u, hu, -⟩ := ht.describes.vars x w hx
  rw [← hv.ty.1]
  have hself := ht.scope.inferred x w hx hw
  refine ⟨_, (AgreesBelow.set st.made ρ u).set_both x v, (ht.retired hx hu).introduced hplain
    (ht.scope.toClosed.silent_retire hx hself) (ht.survives_retired hsurvives w u) (fun w' hw' => ?_)
    (hv.term.renamed ht.scope.toClosed hx hu) fun hmem => ?_⟩
  · obtain ⟨w₀, hw₀, rfl⟩ := Scope.exists_of_vars_retire hw'
    cases hx.symm.trans hw₀
    exact Scope.declared_redirect.trans hw
  · rcases Term.mem_freeVars_rename hmem with rfl | ⟨-, hne⟩
    · exact not_plain_temporaryName _ hplain
    · exact hne rfl

theorem Follows.store_new (ht : Follows answer declared st ρ store) {x : String} (hplain : Plain x)
    (hx : st.scope.vars.get? x = none) {actual : Meaning} {v : Value} (hv : Means st ρ actual v) :
    Follows answer declared (st.introduced x actual.ty.base actual.term) (ρ.set x v) (store.set x v) := by
  have hnew : ¬ st.scope.Names st.made x := by
    rintro (h | ⟨i, -, rfl⟩)
    · rw [hx] at h
      cases h
    · exact not_plain_temporaryName i hplain
  rw [← hv.ty.1]
  exact ht.introduced hplain (ht.scope.toClosed.silent hnew) (ht.scope.toClosed.survives hnew v)
    (fun w hw => (by cases hx.symm.trans hw)) hv.term fun hmem => hnew (hv.term.names x hmem)

/-- A stored value belongs to the declared type of the variable, and the check keeps track of it if the declared
types that mention the variable still hold. -/
theorem Follows.store_sound (ht : Follows answer declared st ρ store) {x : String} (hplain : Plain x)
    (hty : ∀ ty, declared.get? x = some ty → ty.WellTyped (basesOf declared) ∧ ¬ ty.Mentions x) {actual : Meaning}
    {v : Value} (hv : Means st ρ actual v) (hsurvives : st.scope.Survives ρ x v) {loc : Location} {u : Unit}
    (h : Gives (Liquid.store answer ctx loc x actual) st u st') :
    (∀ ty, declared.get? x = some ty → ty.Admits ρ v) ∧
      ∃ ρ', AgreesBelow st.made (ρ.set x v) ρ' ∧ Follows answer declared st' ρ' (store.set x v) := by
  obtain ⟨st₂, rfl, hcases⟩ := gives_store h
  suffices hst₂ : (∀ ty, declared.get? x = some ty → ty.Admits ρ v) ∧
      ∃ ρ', AgreesBelow st.made (ρ.set x v) ρ' ∧ Follows answer declared st₂ ρ' (store.set x v) by
    obtain ⟨hsafe, ρ', hρ', ht'⟩ := hst₂
    exact ⟨hsafe, ρ', hρ', ht'.later rfl ⟨Nat.le_refl _, id⟩⟩
  obtain ⟨ty, st₁, hx, hsub, rfl⟩ | ⟨w, hx, hw, -, rfl⟩ | ⟨hx, -, rfl⟩ := hcases
  · obtain ⟨hwell, hself⟩ := hty ty ((ht.scope.declared_iff x ty).2 hx)
    obtain ⟨hadmits, hkeeps⟩ := ht.store_declared hwell hself hx hv hsurvives hsub
    refine ⟨fun ty' hty' => ?_, hkeeps⟩
    cases hx.symm.trans ((ht.scope.declared_iff x ty').1 hty')
    exact hadmits
  · refine ⟨fun ty hty => ?_, ht.store_known hplain hx hw hv hsurvives⟩
    cases hx.symm.trans ((ht.scope.declared_iff x ty).1 hty)
    cases hw
  · refine ⟨fun ty hty => ?_, _, .refl _ _, ht.store_new hplain hx hv⟩
    cases hx.symm.trans ((ht.scope.declared_iff x ty).1 hty)

theorem checkStmt_sound (hd : Typed declared ctx.functions) {s : Stmt} (hs : s.isStraight = true)
    (hplain : ∀ loc x e, s = .assign loc x e → Plain x) {u : Unit}
    (h : Gives (checkStmt answer ctx s) st u st') (ht : Follows answer declared st ρ store) (left : List Value) :
    (s.run ctx.functions store left).Ensures (Event.Safe declared ctx.functions) fun store' =>
      ∃ ρ', Follows answer declared st' ρ' store' := by
  cases s with
  | declare d =>
    rw [checkStmt, gives_pure] at h
    obtain ⟨-, rfl⟩ := h
    exact Progress.ensures_done ⟨ρ, ht⟩
  | funDef loc name params body =>
    have hadv := advances_checkStmt _ h
    obtain ⟨s, st₁, -, -, rfl⟩ := gives_funDef h
    exact Progress.ensures_done ⟨ρ, ht.later rfl hadv⟩
  | assign loc x e =>
    obtain ⟨m, st₁, he, hstore⟩ := gives_assign h
    refine (meaning_sound e (hd.callsOver _) he ht.tracks left).andThen ?_
    rintro v left ⟨ρ₁, -, ht₁, hv⟩
    have ht₁ := ht.of_tracks (advances_meaning e he).1 ht₁
    have hsurvives : st₁.scope.Survives ρ₁ x v :=
      fun y ty _ hy hm => absurd hm (hd.not_mentions ((ht₁.scope.declared_iff y ty).2 hy) x)
    obtain ⟨hadmits, ρ₂, -, ht₂⟩ := ht₁.store_sound (hplain loc x e rfl)
      (fun ty hty => ⟨hd.wellTyped hty _, hd.not_mentions hty x⟩) hv hsurvives hstore
    have hsafe : ∀ ty, declared.get? x = some ty → ty.Admits (fun _ => none) v :=
      fun ty hty => hd.admits hty (hadmits ty hty) _
    exact Progress.Ensures.after hsafe (Progress.ensures_done ⟨ρ₂, ht₂⟩)
  | expr loc e =>
    simp only [checkStmt, gives_bind, gives_pure] at h
    obtain ⟨m, st₁, he, -, rfl⟩ := h
    refine (meaning_sound e (hd.callsOver _) he ht.tracks left).andThen ?_
    rintro v left ⟨ρ₁, -, ht₁, -⟩
    exact Progress.ensures_done ⟨ρ₁, ht.of_tracks (advances_meaning e he).1 ht₁⟩
  | branch | loop | ret | brk | cont | malformed => cases hs

theorem checkAll_sound (hd : Typed declared ctx.functions) {ss : List Stmt} (hs : ∀ s ∈ ss, s.isStraight = true)
    (hplain : ∀ loc x e, .assign loc x e ∈ ss → Plain x) {u : Unit} (h : Gives (checkAll answer ctx ss) st u st')
    (ht : Follows answer declared st ρ store) (left : List Value) :
    (Stmt.runAll ctx.functions store left ss).Ensures (Event.Safe declared ctx.functions) fun store' =>
      ∃ ρ', Follows answer declared st' ρ' store' := by
  induction ss generalizing st ρ store left with
  | nil =>
    rw [checkAll, gives_pure] at h
    obtain ⟨-, rfl⟩ := h
    exact Progress.ensures_done ⟨ρ, ht⟩
  | cons s ss ih =>
    simp only [checkAll, gives_bind] at h
    obtain ⟨_, st₁, h₁, h⟩ := h
    have hfirst := checkStmt_sound hd (hs s List.mem_cons_self)
      (fun loc x e heq => hplain loc x e (heq ▸ List.mem_cons_self)) h₁ ht left
    refine hfirst.andThen ?_
    rintro store' left ⟨ρ₁, ht₁⟩
    exact ih (fun s' hs' => hs s' (List.mem_cons_of_mem s hs'))
      (fun loc x e hmem => hplain loc x e (List.mem_cons_of_mem s hmem)) h ht₁ left

end LayerCheck.Liquid
