import Mathlib
import LayerCheck.Proofs.Refinement.StraightLine

/-! Soundness of the check for the bodies of functions. In a body the parameters stand beside the declared
variables, under the names that the author gave them. As long as none of these is a name that the signatures
around mention, what the body returns belongs to the result type of the function, whatever the values of
declared variables and the arguments. -/
namespace LayerCheck

/-! ### Values of expressions -/

mutual

/-- The values that an expression can have. A name stands for its local value. A call returns any value that
belongs to the result type of the function, where variables have their global values. -/
inductive Expr.Yields (functions : NameMap Signature) (globals locals : Valuation) : Expr → Value → Prop
  | num (loc : Location) (n : Int) : Yields functions globals locals (.num loc n) (.int n)
  | bool (loc : Location) (b : Bool) : Yields functions globals locals (.bool loc b) (.bool b)
  | ident {loc : Location} {x : String} {v : Value} :
    locals x = some v → Yields functions globals locals (.ident loc x) v
  | call {loc : Location} {f : String} {es : List Expr} {s : Signature} {vs : List Value} {v : Value} :
    YieldsAll functions globals locals es vs → functions.get? f = some s → s.ret.Admits (globals.withArgs vs) v →
    Yields functions globals locals (.call loc f es) v
  | binary {loc : Location} {op : BinaryOp} {l r : Expr} {a b v : Value} :
    Yields functions globals locals l a → Yields functions globals locals r b → a.binary? op b = some v →
    Yields functions globals locals (.binary loc op l r) v
  | unary {loc : Location} {op : UnaryOp} {e : Expr} {a v : Value} :
    Yields functions globals locals e a → a.unary? op = some v →
    Yields functions globals locals (.unary loc op e) v

inductive Expr.YieldsAll (functions : NameMap Signature) (globals locals : Valuation) :
    List Expr → List Value → Prop
  | nil : YieldsAll functions globals locals [] []
  | cons {e : Expr} {es : List Expr} {v : Value} {vs : List Value} :
    Yields functions globals locals e v → YieldsAll functions globals locals es vs →
    YieldsAll functions globals locals (e :: es) (v :: vs)

end

theorem Progress.outcome_andThen {α β : Type} {p : Progress α} {next : α → List Value → Progress β} {a : α}
    {left : List Value} (h : p.outcome = some (a, left)) : (p.andThen next).outcome = (next a left).outcome := by
  rw [andThen, h]

namespace Expr

variable {functions : NameMap Signature} {globals locals : Valuation}

/-- The results of the functions called in some expressions do not tell global values from local ones. -/
def CallsAgree (functions : NameMap Signature) (globals locals : Valuation) (steps : List Expr) : Prop :=
  ∀ loc f es s, .call loc f es ∈ steps → functions.get? f = some s →
    ∀ vs v, s.ret.Admits (globals.withArgs vs) v → s.ret.Admits (locals.withArgs vs) v

theorem CallsAgree.mono {steps steps' : List Expr} (h : CallsAgree functions globals locals steps)
    (hsub : steps' ⊆ steps) : CallsAgree functions globals locals steps' :=
  fun loc f es s hmem => h loc f es s (hsub hmem)

mutual

/-- Every value of an expression is the result of a run, for some results of calls. -/
theorem Yields.exists_run (e : Expr) {v : Value} (h : e.Yields functions globals locals v)
    (hd : CallsAgree functions globals locals e.steps) :
    ∃ results, ∀ left, (e.run functions locals (results ++ left)).outcome = some (v, left) := by
  cases h with
  | num loc n => exact ⟨[], fun left => rfl⟩
  | bool loc b => exact ⟨[], fun left => rfl⟩
  | ident hx =>
    refine ⟨[], fun left => ?_⟩
    rw [run, hx]
    rfl
  | @call loc f es s vs _ hes hs hv =>
    obtain ⟨results, hrun⟩ := YieldsAll.exists_run es hes (hd.mono (List.subset_cons_self _ _))
    refine ⟨results ++ [v], fun left => ?_⟩
    have hv := hd loc f es s List.mem_cons_self hs vs v hv
    rw [List.append_assoc, run, Progress.outcome_andThen (hrun f [] _)]
    simp only [hs, List.nil_append, List.singleton_append, Signature.returned, if_pos hv]
    rfl
  | @binary loc op l r a b _ hl hr hv =>
    obtain ⟨first, hl⟩ := Yields.exists_run l hl
      (hd.mono fun s hs => List.mem_cons_of_mem _ (List.mem_append_left _ hs))
    obtain ⟨second, hr⟩ := Yields.exists_run r hr
      (hd.mono fun s hs => List.mem_cons_of_mem _ (List.mem_append_right _ hs))
    refine ⟨first ++ second, fun left => ?_⟩
    rw [List.append_assoc, run, Progress.outcome_andThen (hl _), Progress.outcome_andThen (hr _), hv]
    rfl
  | @unary loc op e a _ he hv =>
    obtain ⟨results, he⟩ := Yields.exists_run e he (hd.mono (List.subset_cons_self _ _))
    refine ⟨results, fun left => ?_⟩
    rw [run, Progress.outcome_andThen (he _), hv]
    rfl

theorem YieldsAll.exists_run (es : List Expr) {vs : List Value} (h : YieldsAll functions globals locals es vs)
    (hd : CallsAgree functions globals locals (stepsAll es)) :
    ∃ results, ∀ f earlier left,
      (runArgs functions locals f earlier es (results ++ left)).outcome = some (earlier ++ vs, left) := by
  cases h with
  | nil => exact ⟨[], fun f earlier left => by rw [List.append_nil]; rfl⟩
  | @cons e es v vs he hes =>
    obtain ⟨first, he⟩ := Yields.exists_run e he (hd.mono (List.subset_append_left _ _))
    obtain ⟨rest, hes⟩ := YieldsAll.exists_run es hes (hd.mono (List.subset_append_right _ _))
    refine ⟨first ++ rest, fun f earlier left => ?_⟩
    rw [List.append_assoc, runArgs, Progress.outcome_andThen (he _)]
    exact (hes f (earlier ++ [v]) left).trans (by rw [List.append_assoc]; rfl)

end

end Expr

/-! ### Parameters -/

/-- The values of parameters before those of other variables. -/
def Valuation.setAll (ρ : Valuation) : List String → List Value → Valuation
  | x :: xs, v :: vs => (ρ.setAll xs vs).set x v
  | _, _ => ρ

theorem Valuation.setAll_of_not_mem (ρ : Valuation) {xs : List String} (vs : List Value) {x : String} (h : x ∉ xs) :
    ρ.setAll xs vs x = ρ x := by
  induction xs generalizing vs with
  | nil => rfl
  | cons y xs ih =>
    cases vs with
    | nil => rfl
    | cons v vs =>
      obtain ⟨hne, hrest⟩ := not_or.1 (mt List.mem_cons.2 h)
      rw [setAll, set_of_ne _ hne, ih _ hrest]

theorem Valuation.setAll_getElem? (ρ : Valuation) {xs : List String} (hxs : xs.Nodup) {vs : List Value} {x : String}
    {v : Value} {i : Nat} (hx : xs[i]? = some x) (hv : vs[i]? = some v) : ρ.setAll xs vs x = some v := by
  induction xs generalizing vs i with
  | nil => cases hx
  | cons y xs ih =>
    obtain ⟨hy, hxs⟩ := List.nodup_cons.1 hxs
    cases vs with
    | nil => cases hv
    | cons u vs =>
      cases i with
      | zero =>
        cases hx
        cases hv
        exact set_self _ _ _
      | succ i =>
        have hne : x ≠ y := by
          rintro rfl
          exact hy (List.mem_of_getElem? hx)
        rw [setAll, set_of_ne _ hne]
        exact ih hxs hx hv

/-- The base types of variables other than some parameters. -/
def Bases.without (Γ : Bases) (params : List String) : Bases := fun x => if x ∈ params then none else Γ x

namespace Signature

/-- The variables, or positions of arguments, that a signature mentions besides bound names. -/
def Mentions (s : Signature) (x : String) : Prop := (∃ arg ∈ s.args, arg.Mentions x) ∨ s.ret.Mentions x

instance (s : Signature) (x : String) : Decidable (s.Mentions x) := inferInstanceAs (Decidable (_ ∨ _))

variable {Γ : Bases} {params : List String}

theorem wellTyped_without {ty : RefinedType} {bs : List BaseType} (hty : ty.WellTyped (Γ.withArgs bs))
    (hfree : ∀ p ∈ params, ¬ ty.Mentions p) : ty.WellTyped ((Γ.without params).withArgs bs) := by
  intro r hr
  refine (hty r hr).mono fun x hx b hb => ?_
  rw [Bases.set] at hb ⊢
  split at hb
  next hxr => rw [if_pos hxr, hb]
  next hxr =>
    have hx : x ∉ params := fun hp => hfree x hp ⟨r, hr, hx, hxr⟩
    rw [if_neg hxr, Bases.withArgs, Bases.without, if_neg hx]
    exact hb

theorem positionalFrom_without {args : List RefinedType} {earlier : List BaseType}
    (h : PositionalFrom Γ earlier args) (hfree : ∀ p ∈ params, ∀ arg ∈ args, ¬ arg.Mentions p) :
    PositionalFrom (Γ.without params) earlier args := by
  induction args generalizing earlier with
  | nil => trivial
  | cons arg args ih =>
    exact ⟨wellTyped_without h.1 fun p hp => hfree p hp arg List.mem_cons_self,
      ih h.2 fun p hp arg' harg => hfree p hp arg' (List.mem_cons_of_mem _ harg)⟩

/-- A signature that mentions no parameter is one over the other variables. -/
theorem Positional.without {s : Signature} (h : s.Positional Γ) (hfree : ∀ p ∈ params, ¬ s.Mentions p) :
    s.Positional (Γ.without params) where
  args := positionalFrom_without h.args fun p hp arg harg hm => hfree p hp (.inl ⟨arg, harg, hm⟩)
  ret x hx := by
    refine (h.ret x hx).imp_right fun hΓ => ?_
    rw [Bases.without, if_neg fun hp => hfree x hp (.inr hx)]
    exact hΓ

end Signature

/-- A type that mentions no parameter does not tell global values from local ones. -/
theorem RefinedType.verdict_setAll {ty : RefinedType} {params : List String} (hfree : ∀ p ∈ params, ¬ ty.Mentions p)
    (globals : Valuation) (args vs : List Value) (v : Value) :
    ty.verdict ((globals.setAll params args).withArgs vs) v = ty.verdict (globals.withArgs vs) v := by
  refine verdict_congr fun x hx => ?_
  rw [Valuation.withArgs, Valuation.withArgs, Valuation.setAll_of_not_mem globals args fun hp => hfree x hp hx]

namespace Liquid

open Canonical

variable {σ : Type} {answer : Answerer σ} {ctx : Context} {st st' : State σ}

theorem get?_parameterTerms (params : List String) (x : String) :
    (parameterTerms params).get? x = (slot? 0 params x).map .var := by
  induction params using List.reverseRecOn with
  | nil => rfl
  | append_singleton params p ih =>
    rw [parameterTerms, NameMap.ofList] at ih
    rw [parameterTerms, NameMap.ofList, List.mapIdx_concat, List.foldl_concat, NameMap.get?_insert, ih,
      slot?_append_singleton, Nat.zero_add]
    split <;> rfl

section

variable (f : RefinedType → RefinedType) {scope : Scope} {pairs : List (String × RefinedType)} {x : String}

/-- Declares names one after the other. -/
def declareAll (scope : Scope) (pairs : List (String × RefinedType)) : Scope :=
  pairs.foldl (fun scope (param, ty) => scope.declare param (f ty)) scope

theorem declareAll_temporaries : (declareAll f scope pairs).temporaries = scope.temporaries := by
  induction pairs generalizing scope with
  | nil => rfl
  | cons pair pairs ih => exact ih

theorem declareAll_path : (declareAll f scope pairs).path = scope.path := by
  induction pairs generalizing scope with
  | nil => rfl
  | cons pair pairs ih => exact ih

theorem declareAll_sorted (h : scope.vars.Sorted) : (declareAll f scope pairs).vars.Sorted := by
  induction pairs generalizing scope with
  | nil => exact h
  | cons pair pairs ih => exact ih (h.insert pair.1 _)

theorem get?_declareAll_of_not_mem (h : x ∉ pairs.map (·.1)) :
    (declareAll f scope pairs).vars.get? x = scope.vars.get? x := by
  induction pairs generalizing scope with
  | nil => rfl
  | cons pair pairs ih =>
    obtain ⟨hne, hrest⟩ := not_or.1 (mt List.mem_cons.2 h)
    exact (ih hrest).trans ((NameMap.get?_insert ..).trans (if_neg hne))

theorem get?_declareAll_of_mem (hpairs : (pairs.map (·.1)).Nodup) {ty : RefinedType} (h : (x, ty) ∈ pairs) :
    (declareAll f scope pairs).vars.get? x = some ⟨f ty, true⟩ := by
  induction pairs generalizing scope with
  | nil => cases h
  | cons pair pairs ih =>
    obtain ⟨hx, hpairs⟩ := List.nodup_cons.1 hpairs
    rcases List.mem_cons.1 h with rfl | h
    · exact (get?_declareAll_of_not_mem f hx).trans ((NameMap.get?_insert ..).trans (if_pos rfl))
    · exact ih hpairs h

end

section

variable {params : List String} {s : Signature}

theorem bodyScope_eq (ctx : Context) (params : List String) (s : Signature) : bodyScope ctx params s =
    declareAll (·.subst (parameterTerms params)) (.ofDeclared ctx.globals) (params.zip s.args) := rfl

theorem bodyScope_temporaries : (bodyScope ctx params s).temporaries = [] := by
  rw [bodyScope_eq, declareAll_temporaries]
  rfl

theorem bodyScope_path : (bodyScope ctx params s).path = [] := by
  rw [bodyScope_eq, declareAll_path]
  rfl

/-- A parameter has its type with the parameters put in for positions. -/
theorem get?_bodyScope_param (hparams : params.Nodup) (hlen : s.args.length = params.length) {i : Nat} {p : String}
    {arg : RefinedType} (hp : params[i]? = some p) (harg : s.args[i]? = some arg) :
    (bodyScope ctx params s).vars.get? p = some ⟨arg.subst (parameterTerms params), true⟩ := by
  rw [bodyScope_eq]
  refine get?_declareAll_of_mem _ ?_ (List.mem_of_getElem? (List.getElem?_zip_eq_some.2 ⟨hp, harg⟩))
  rw [List.map_fst_zip (Nat.le_of_eq hlen.symm)]
  exact hparams

theorem get?_bodyScope_global (hlen : s.args.length = params.length) {x : String} (hx : x ∉ params) :
    (bodyScope ctx params s).vars.get? x = (ctx.globals.get? x).map fun ty => ⟨ty, true⟩ := by
  rw [bodyScope_eq, get?_declareAll_of_not_mem, get?_vars_ofDeclared]
  rw [List.map_fst_zip (Nat.le_of_eq hlen.symm)]
  exact hx

theorem isSome_bodyScope_param (hparams : params.Nodup) (hlen : s.args.length = params.length) {p : String}
    (hp : p ∈ params) : ((bodyScope ctx params s).vars.get? p).isSome := by
  obtain ⟨i, hi⟩ := List.mem_iff_getElem?.1 hp
  have hlt : i < s.args.length := hlen ▸ (List.getElem?_eq_some_iff.1 hi).1
  rw [get?_bodyScope_param hparams hlen hi (List.getElem?_eq_getElem hlt)]
  rfl

/-- A variable of the body is a parameter or a declared variable of another name. -/
theorem exists_of_bodyScope (hparams : params.Nodup) (hlen : s.args.length = params.length) {x : String}
    {w : VariableType} (h : (bodyScope ctx params s).vars.get? x = some w) :
    (∃ (i : Nat) (arg : RefinedType), params[i]? = some x ∧ s.args[i]? = some arg ∧
        w.ty = arg.subst (parameterTerms params)) ∨
      x ∉ params ∧ ctx.globals.get? x = some w.ty := by
  by_cases hx : x ∈ params
  · obtain ⟨i, hi⟩ := List.mem_iff_getElem?.1 hx
    have hlt : i < s.args.length := hlen ▸ (List.getElem?_eq_some_iff.1 hi).1
    rw [get?_bodyScope_param hparams hlen hi (List.getElem?_eq_getElem hlt)] at h
    cases h
    exact .inl ⟨i, _, hi, List.getElem?_eq_getElem hlt, rfl⟩
  · rw [get?_bodyScope_global hlen hx] at h
    obtain ⟨ty, hty, rfl⟩ := Option.map_eq_some_iff.1 h
    exact .inr ⟨hx, hty⟩

/-! ### Bodies -/

variable {globals : Valuation} {args : List Value}

/-- Declared variables have values of their types, and the arguments of a call values of the parameter types,
where positional names stand for arguments and other names for declared variables. -/
structure Applies (declared : NameMap RefinedType) (globals : Valuation) (s : Signature) (args : List Value) :
    Prop where
  known : ∀ x ty, declared.get? x = some ty → ∃ v, globals x = some v ∧ ty.Admits (fun _ => none) v
  count : args.length = s.args.length
  passed : ∀ (i : Nat) (ty : RefinedType) (v : Value), s.args[i]? = some ty → args[i]? = some v →
    ty.Admits (globals.withArgs args) v

theorem Applies.bases {declared : NameMap RefinedType} (h : Applies declared globals s args) :
    args.map Value.base = s.args.map (·.base) := by
  refine List.ext_getElem? fun i => ?_
  rw [List.getElem?_map, List.getElem?_map]
  rcases Nat.lt_or_ge i args.length with hi | hi
  · have hi' : i < s.args.length := h.count ▸ hi
    have hv := List.getElem?_eq_getElem hi
    have hty := List.getElem?_eq_getElem hi'
    rw [hv, hty, Option.map_some, Option.map_some, (h.passed i _ _ hty hv).1]
  · have hi' : s.args.length ≤ i := h.count ▸ hi
    rw [List.getElem?_eq_none hi, List.getElem?_eq_none hi']
    rfl

/-- The parameters, put in for positions, have the values of the arguments. -/
theorem fills_parameterTerms (hparams : params.Nodup) (hlen : args.length = params.length)
    (hscope : ∀ p ∈ params, (st.scope.vars.get? p).isSome) :
    Fills st (globals.setAll params args) (parameterTerms params) args := by
  constructor
  · intro x t hx
    rw [get?_parameterTerms] at hx
    obtain ⟨p, hslot, rfl⟩ := Option.map_eq_some_iff.1 hx
    obtain ⟨i, hi, rfl⟩ := slot?_eq_some hslot
    have hlt : i < args.length := hlen ▸ (List.getElem?_eq_some_iff.1 hi).1
    have hvalue := List.getElem?_eq_getElem hlt
    refine ⟨args[i], (slot?_nameAt 0 args i).trans hvalue, globals.setAll_getElem? hparams hi hvalue, fun y hy => ?_⟩
    rw [List.mem_singleton.1 hy]
    exact .inl (hscope p (List.mem_of_getElem? hi))
  · intro x hx
    rw [get?_parameterTerms, Option.map_eq_none_iff] at hx
    rw [Option.eq_none_iff_forall_ne_some]
    intro v hv
    obtain ⟨i, hi, rfl⟩ := slot?_eq_some hv
    have hlt : i < params.length := hlen ▸ (List.getElem?_eq_some_iff.1 hi).1
    rw [slot?_nameAt, List.getElem?_eq_getElem hlt] at hx
    cases hx

/-- The state in which the body of a definition is checked. -/
def bodyState (ctx : Context) (params : List String) (s : Signature) (st : State σ) : State σ :=
  { st with scope := bodyScope ctx params s, assigned := [] }

/-- The scope of a body mentions nothing but its variables. -/
theorem closed_bodyScope (hsorted : ctx.globals.Sorted) (hd : Typed ctx.globals ctx.functions)
    (hpos : s.Positional (basesOf ctx.globals)) (hparams : params.Nodup) (hplain : ∀ p ∈ params, Plain p)
    (hlen : s.args.length = params.length) (hcount : args.length = s.args.length)
    (hf : Fills (bodyState ctx params s st) (globals.setAll params args) (parameterTerms params) args) :
    (bodyScope ctx params s).Closed st.made := by
  have hglobal : ∀ x, (basesOf ctx.globals x).isSome → ((bodyScope ctx params s).vars.get? x).isSome := by
    intro x hx
    by_cases hp : x ∈ params
    · exact isSome_bodyScope_param hparams hlen hp
    · rw [get?_bodyScope_global hlen hp, Option.isSome_map]
      rwa [basesOf, Option.isSome_map] at hx
  constructor
  case sorted =>
    exact declareAll_sorted _ (hsorted.mapValues fun _ ty => VariableType.mk ty true)
  case plain =>
    intro x w hx
    obtain ⟨i, arg, hi, -, -⟩ | ⟨-, hx⟩ := exists_of_bodyScope hparams hlen hx
    · exact hplain x (List.mem_of_getElem? hi)
    · exact hd.plain x w.ty hx
  case mentions =>
    intro x w hx y hy
    obtain ⟨i, arg, -, harg, hw⟩ | ⟨-, hx⟩ := exists_of_bodyScope hparams hlen hx
    · rw [hw] at hy
      refine hf.supplies.names_subst (fun z hz => ?_) hy
      have hz := hpos.args.mentions (List.mem_of_getElem? harg) hz
      rw [List.length_nil, Nat.zero_add, ← hcount] at hz
      exact hz.imp_right fun h => .inl (hglobal z h)
    · exact absurd hy (hd.not_mentions hx y)
  case temporaries =>
    intro t ht
    rw [bodyScope_temporaries] at ht
    cases ht
  case path =>
    intro c hc
    rw [bodyScope_path] at hc
    cases hc

/-- The scope of a body describes each call with arguments of the parameter types. -/
theorem describes_bodyScope (hd : Typed ctx.globals ctx.functions) (hparams : params.Nodup)
    (hlen : s.args.length = params.length) (hfree : ∀ p ∈ params, ¬ s.Mentions p)
    (hcall : Applies ctx.globals globals s args)
    (hf : Fills (bodyState ctx params s st) (globals.setAll params args) (parameterTerms params) args) :
    (bodyScope ctx params s).Describes (globals.setAll params args) := by
  constructor
  case vars =>
    intro x w hx
    obtain ⟨i, arg, hi, harg, hw⟩ | ⟨hp, hx⟩ := exists_of_bodyScope hparams hlen hx
    · have hlt : i < args.length := hcall.count ▸ (List.getElem?_eq_some_iff.1 harg).1
      have ha := List.getElem?_eq_getElem hlt
      obtain ⟨hbase, hverdict⟩ := hcall.passed i arg _ harg ha
      refine ⟨args[i], globals.setAll_getElem? hparams hi ha, ?_⟩
      rw [hw]
      refine ⟨hbase.trans (RefinedType.base_subst _ arg).symm, ?_⟩
      rw [hf.verdict_subst, RefinedType.verdict_setAll, hverdict]
      exact fun p hp hm => hfree p hp (.inl ⟨arg, List.mem_of_getElem? harg, hm⟩)
    · obtain ⟨v, hv, hbase, hverdict⟩ := hcall.known x w.ty hx
      refine ⟨v, (globals.setAll_of_not_mem args hp).trans hv, hbase, ?_⟩
      rw [← hverdict]
      exact RefinedType.verdict_congr fun y hy => absurd hy (hd.not_mentions hx y)
  case temporaries =>
    intro t ht
    rw [bodyScope_temporaries] at ht
    cases ht
  case path =>
    intro c hc
    rw [bodyScope_path] at hc
    cases hc

/-- The check of a body starts out tracking a call with arguments of the parameter types. -/
theorem tracks_bodyState (hsolver : Truthful answer st.solver) (hsorted : ctx.globals.Sorted)
    (hd : Typed ctx.globals ctx.functions) (hpos : s.Positional (basesOf ctx.globals))
    (hparams : params.Nodup) (hplain : ∀ p ∈ params, Plain p) (hlen : s.args.length = params.length)
    (hfree : ∀ p ∈ params, ¬ s.Mentions p) (hcall : Applies ctx.globals globals s args)
    (hf : Fills (bodyState ctx params s st) (globals.setAll params args) (parameterTerms params) args) :
    Tracks answer ((basesOf ctx.globals).without params) (bodyState ctx params s st)
      (globals.setAll params args) (globals.setAll params args) := by
  constructor
  case scope => exact closed_bodyScope hsorted hd hpos hparams hplain hlen hcall.count hf
  case covers =>
    intro x b hx
    rw [Bases.without] at hx
    split at hx
    next => cases hx
    next hp =>
      obtain ⟨ty, hty, rfl⟩ := Option.map_eq_some_iff.1 hx
      refine ⟨⟨ty, true⟩, ?_, rfl⟩
      exact (get?_bodyScope_global hlen hp).trans (congrArg (Option.map _) hty)
  case describes => exact describes_bodyScope hd hparams hlen hfree hcall hf
  case store => exact fun x _ => rfl
  case solver => exact hsolver

end

/-- The definition of a function by one expression is checked by checking that expression against the result
type with the parameters put in. -/
theorem gives_definition {loc loc' : Location} {f : String} {params : List String} {e : Expr} {u : Unit}
    (h : Gives (checkStmt answer ctx (.funDef loc f params [.ret loc' (some e)])) st u st') :
    ∃ s m st₁ st₂, ctx.functions.get? f = some s ∧ s.args.length = params.length ∧
      let ctx' := { ctx with result := some (s.ret.subst (parameterTerms params)), inBranch := false }
      Gives (meaning answer ctx' e) (bodyState ctx params s st) m st₁ ∧
      Gives (checkSubtype answer m (s.ret.subst (parameterTerms params))
        (s.ret.subst (parameterTerms params)).display e.loc) st₁ () st₂ := by
  obtain ⟨s, st₁, hs, hbody, -⟩ := gives_funDef h
  obtain ⟨hget, hlen⟩ := gives_signatureFor hs
  simp only [checkAll, gives_bind] at hbody
  obtain ⟨_, st₂, hbody, -⟩ := hbody
  obtain ⟨hnone, -⟩ | ⟨expected, e', m, st₃, hexpected, he', hmeaning, hsub⟩ := gives_ret hbody
  · cases hnone
  · cases hexpected
    cases he'
    exact ⟨s, m, st₃, _, hget, hlen, hmeaning, hsub⟩

/-- What an expression gives, once it has passed the check against a type with terms put in for arguments,
belongs to that type. -/
theorem Tracks.admits_outcome {Γ : Bases} {locals : Valuation} (ht : Tracks answer Γ st locals locals)
    {terms : NameMap Term} {args : List Value} (hf : Fills st locals terms args) {e : Expr} {m : Meaning}
    {st₁ st₂ : State σ} (hmeaning : Gives (meaning answer ctx e) st m st₁)
    (hcalls : CallsOver ctx.functions Γ e.steps) {ty : RefinedType} {text : String} {loc : Location} {u : Unit}
    (hty : ty.WellTyped (Γ.withArgs (args.map Value.base)))
    (hsub : Gives (checkSubtype answer m (ty.subst terms) text loc) st₁ u st₂) {results left : List Value}
    {v : Value} (hrun : (e.run ctx.functions locals results).outcome = some (v, left)) :
    ty.Admits (locals.withArgs args) v := by
  have hsound : (e.run ctx.functions locals results).Ensures (Event.Safe [] ctx.functions) _ :=
    meaning_sound e hcalls hmeaning ht results
  obtain ⟨ρ, hρ, ht₁, hm⟩ := hsound.result v left hrun
  obtain ⟨hadds, hadv⟩ := advances_meaning e hmeaning
  exact ht₁.argument hm (hf.later ht.scope hρ hadds.vars hadv.made) hty hsub

/-- What a body that passes the check returns belongs to the result type of its function, for all values of
declared variables and arguments, provided that no parameter has a name that the signature of the function or of
one that it calls mentions. -/
theorem admits_of_funDef {text : String} {tree : Tree} (hparse : Tree.parse text = .ok tree)
    {table table' : FactTable} {ds : Declarations}
    (hds : (recordAll ⟨[], []⟩ (tree.declarationsFor layerName)).run.run table = (.ok ds, table'))
    (hwell : DeclaredWell tree ds) {loc loc' : Location} {f : String} {params : List String} {e : Expr}
    (hmem : .funDef loc f params [.ret loc' (some e)] ∈ Stmt.partsAll tree.statements) (hparams : params.Nodup)
    (hctx : ctx.globals = ds.vars ∧ ctx.functions = ds.functions) (hsolver : Truthful answer st.solver)
    (haccept : Gives (checkStmt answer ctx (.funDef loc f params [.ret loc' (some e)])) st () st')
    {s : Signature} (hs : ds.functions.get? f = some s)
    (hret : s.ret.WellTyped ((basesOf ds.vars).withArgs (s.args.map (·.base))))
    (hfree : ∀ p ∈ params, ¬ s.Mentions p ∧
      ∀ loc g es s', .call loc g es ∈ e.steps → ds.functions.get? g = some s' → ¬ s'.Mentions p)
    {globals : Valuation} {args : List Value} (hcall : Applies ds.vars globals s args) {v : Value}
    (hv : e.Yields ds.functions globals (globals.setAll params args) v) :
    s.ret.Admits (globals.withArgs args) v := by
  obtain ⟨hvars, hfunctions⟩ := hctx
  have hnames : tree.Named Plain := fun loc x hx => plain_of_identLike (Tree.parse_named hparse loc x hx)
  have hrecorded := recorded_of_recordAll hds
  have htyped := typed_of_recordAll hnames hwell hrecorded
  have hsorted := hrecorded.sorted
  have hplain : ∀ p ∈ params, Plain p :=
    fun p hp => Stmt.named_introduced hnames hmem (List.mem_cons_of_mem f hp)
  have hown : ∀ p ∈ params, ¬ s.ret.Mentions p := fun p hp hm => (hfree p hp).1 (.inr hm)
  rw [← hvars] at hsorted hret hcall
  rw [← hfunctions] at hs hfree hv
  rw [← hvars, ← hfunctions] at htyped
  obtain ⟨s', m, st₁, st₂, hget, hlen, hmeaning, hsub⟩ := gives_definition haccept
  cases hget.symm.trans hs
  have hf : Fills (bodyState ctx params s st) (globals.setAll params args) (parameterTerms params) args :=
    fills_parameterTerms hparams (hcall.count.trans hlen) fun p hp => isSome_bodyScope_param hparams hlen hp
  have ht := tracks_bodyState hsolver hsorted htyped (htyped.functions f s hs) hparams hplain hlen
    (fun p hp => (hfree p hp).1) hcall hf
  have hcalls : CallsOver ctx.functions ((basesOf ctx.globals).without params) e.steps := fun loc g es s' hg hs' =>
    (htyped.functions g s' hs').without fun p hp => (hfree p hp).2 loc g es s' hg hs'
  -- each value of the body is the result of a run, in which calls read local values as global ones
  have hagree : Expr.CallsAgree ctx.functions globals (globals.setAll params args) e.steps := by
    intro loc g es s' hg hs' vs u hu
    refine ⟨hu.1, (RefinedType.verdict_setAll (fun p hp hm => ?_) globals args vs u).trans hu.2⟩
    exact (hfree p hp).2 loc g es s' hg hs' (.inr hm)
  obtain ⟨results, hrun⟩ := hv.exists_run e hagree
  have hty : s.ret.WellTyped (((basesOf ctx.globals).without params).withArgs (args.map Value.base)) := by
    rw [hcall.bases]
    exact Signature.wellTyped_without hret hown
  obtain ⟨hbase, hverdict⟩ := ht.admits_outcome hf hmeaning hcalls hty hsub (hrun [])
  exact ⟨hbase, (RefinedType.verdict_setAll hown globals args args v).symm.trans hverdict⟩

/-! ### A parameter with the name of a bound variable, and one with the name of a declared variable -/

theorem applies_singleton {x : String} {ty arg : RefinedType} {s : Signature} {globals : Valuation} {u v : Value}
    (hx : globals x = some u) (hu : ty.Admits (fun _ => none) u) (hargs : s.args = [arg])
    (hv : arg.Admits (globals.withArgs [v]) v) : Applies [(x, ty)] globals s [v] := by
  refine ⟨fun y ty' hy => ?_, by rw [hargs]; rfl, fun i ty' v' hty hv' => ?_⟩
  · obtain ⟨rfl, rfl⟩ := NameMap.get?_singleton hy
    exact ⟨u, hx, hu⟩
  · rw [hargs] at hty
    cases i with
    | zero =>
      cases hty
      cases hv'
      exact hv
    | succ i => cases hty

/-- The parameter `r` has the name that the result type binds. -/
def grownText : String :=
  "g : liquid : \x7bv:Int | v > 0\x7d\nf : liquid : \x7bx:Int | x > g\x7d -> \x7br:Int | r > x\x7d\n" ++
    "def f(r) \x7b return f(r + g) \x7d"

def positive : RefinedType := .refined .int "v" (.binary .gt (.var "v") (.int 0))

def grownBody : Expr := .call ⟨3, 19⟩ "f" [.binary ⟨3, 21⟩ .add (.ident ⟨3, 21⟩ "r") (.ident ⟨3, 25⟩ "g")]

def grownFunction : Stmt := .funDef ⟨3, 1⟩ "f" ["r"] [.ret ⟨3, 12⟩ (some grownBody)]

def grownDeclarations : List Declaration :=
  [⟨⟨1, 1⟩, "g", "liquid", "\x7bv:Int | v > 0\x7d"⟩,
    ⟨⟨2, 1⟩, "f", "liquid", "\x7bx:Int | x > g\x7d -> \x7br:Int | r > x\x7d"⟩]

def grownSignature : Signature :=
  ⟨[.refined .int "$arg0" (.binary .gt (.var "$arg0") (.var "g"))],
    .refined .int "r" (.binary .gt (.var "r") (.var "$arg0"))⟩

def grownTypes : Declarations := ⟨[("g", positive)], [("f", grownSignature)]⟩

theorem parse_grownText : (Tree.parse grownText).toOption.map
    (fun tree => (tree.statements, tree.declarationsFor layerName)) =
      some (grownDeclarations.map .declare ++ [grownFunction], grownDeclarations) := by cbv

theorem parse_positive : LiquidType.parse "\x7bv:Int | v > 0\x7d" = .ok (.value positive) := by cbv

theorem parse_grownSignature : LiquidType.parse "\x7bx:Int | x > g\x7d -> \x7br:Int | r > x\x7d" =
    .ok (.function ⟨[.refined .int "x" (.binary .gt (.var "x") (.var "g"))],
      .refined .int "r" (.binary .gt (.var "r") (.var "x"))⟩) := by cbv

theorem recordAll_grownDeclarations : ∃ table,
    (recordAll ⟨[], []⟩ grownDeclarations).run.run .empty = (.ok grownTypes, table) := by
  refine ⟨_, Prod.ext ?_ rfl⟩
  simp only [grownDeclarations, recordAll, parse_positive, parse_grownSignature]
  rfl

theorem checkStmt_grownFunction : ((checkStmt (fun q u => (Solver.settle ⟨1, 100⟩ q, u))
    ⟨grownTypes.functions, grownTypes.vars, none, false⟩ grownFunction).run.run
      (.start grownTypes.vars ())).1 = .ok () := by cbv

/-- Where `g` is five, a call of `f` with six that gets twenty from the call with eleven gives more than six. -/
theorem grownFunction_admits :
    let globals : Valuation := fun _ => some (.int 5)
    Applies grownTypes.vars globals grownSignature [.int 6] ∧
      grownBody.Yields grownTypes.functions globals (globals.setAll ["r"] [.int 6]) (.int 20) ∧
      grownSignature.ret.Admits (globals.withArgs [.int 6]) (.int 20) := by
  intro globals
  obtain ⟨tree, hparse, hread⟩ := Tree.exists_parse parse_grownText
  obtain ⟨hstatements, hdeclarations⟩ := Prod.mk.inj hread
  obtain ⟨table, hds⟩ := recordAll_grownDeclarations
  rw [← hdeclarations] at hds
  have hwell : DeclaredWell tree grownTypes := by
    refine declaredWell_of_parse ?_
    simp only [hdeclarations, grownDeclarations, List.forall_mem_cons]
    exact ⟨⟨_, parse_positive, by decide⟩, ⟨_, parse_grownSignature, by decide⟩, by simp⟩
  have hmem : grownFunction ∈ Stmt.partsAll tree.statements := by
    rw [hstatements]
    exact Stmt.mem_partsAll_of_mem (by simp)
  have hcall : Applies grownTypes.vars globals grownSignature [.int 6] :=
    applies_singleton (rfl : globals "g" = some (.int 5)) (by decide) rfl (by decide)
  have hv : grownBody.Yields grownTypes.functions globals (globals.setAll ["r"] [.int 6]) (.int 20) :=
    .call (.cons (.binary (.ident rfl) (.ident rfl) rfl) .nil) rfl (by decide)
  refine ⟨hcall, hv, ?_⟩
  refine admits_of_funDef hparse hds hwell hmem (by decide) ⟨rfl, rfl⟩ (truthful_settle ⟨1, 100⟩)
    (gives_of_fst checkStmt_grownFunction) rfl (by decide) (fun p hp => ?_) hcall hv
  cases List.mem_singleton.1 hp
  refine ⟨by decide, fun loc g es s' _ hs' => ?_⟩
  obtain ⟨-, rfl⟩ := NameMap.get?_singleton hs'
  decide

/-- The parameter `g` has the name of the declared variable that the result type mentions. -/
def shadowedText : String :=
  "g : liquid : \x7bv:Int | v > 0\x7d\nf : liquid : \x7bx:Int | x > 0\x7d -> \x7br:Int | r == g\x7d\n" ++
    "def f(g) \x7b\n return g\n\x7d\n"

def shadowedBody : Expr := .ident ⟨4, 9⟩ "g"

def shadowedFunction : Stmt := .funDef ⟨3, 1⟩ "f" ["g"] [.ret ⟨4, 2⟩ (some shadowedBody)]

def shadowedDeclarations : List Declaration :=
  [⟨⟨1, 1⟩, "g", "liquid", "\x7bv:Int | v > 0\x7d"⟩,
    ⟨⟨2, 1⟩, "f", "liquid", "\x7bx:Int | x > 0\x7d -> \x7br:Int | r == g\x7d"⟩]

def shadowedSignature : Signature :=
  ⟨[.refined .int "$arg0" (.binary .gt (.var "$arg0") (.int 0))],
    .refined .int "r" (.binary .eq (.var "r") (.var "g"))⟩

def shadowedTypes : Declarations := ⟨[("g", positive)], [("f", shadowedSignature)]⟩

theorem parse_shadowedText : (Tree.parse shadowedText).toOption.map
    (fun tree => (tree.statements, tree.declarationsFor layerName)) =
      some (shadowedDeclarations.map .declare ++ [shadowedFunction], shadowedDeclarations) := by cbv

theorem parse_shadowedSignature : LiquidType.parse "\x7bx:Int | x > 0\x7d -> \x7br:Int | r == g\x7d" =
    .ok (.function ⟨[.refined .int "x" (.binary .gt (.var "x") (.int 0))],
      .refined .int "r" (.binary .eq (.var "r") (.var "g"))⟩) := by cbv

/-- Where `g` is five, an accepted `f` gives one for one, and not the five that its result type asks for. -/
theorem shadowedFunction_not_admits :
    let globals : Valuation := fun _ => some (.int 5)
    (∃ tree table, Tree.parse shadowedText = .ok tree ∧ shadowedFunction ∈ Stmt.partsAll tree.statements ∧
      (recordAll ⟨[], []⟩ (tree.declarationsFor layerName)).run.run .empty = (.ok shadowedTypes, table) ∧
      DeclaredWell tree shadowedTypes) ∧
    (∃ st', Gives (checkStmt (fun q u => (Solver.settle ⟨1, 100⟩ q, u))
      ⟨shadowedTypes.functions, shadowedTypes.vars, none, false⟩ shadowedFunction)
      (.start shadowedTypes.vars ()) () st') ∧
    Applies shadowedTypes.vars globals shadowedSignature [.int 1] ∧
    shadowedBody.Yields shadowedTypes.functions globals (globals.setAll ["g"] [.int 1]) (.int 1) ∧
    shadowedSignature.Mentions "g" ∧ ¬ shadowedSignature.ret.Admits (globals.withArgs [.int 1]) (.int 1) := by
  intro globals
  obtain ⟨tree, hparse, hread⟩ := Tree.exists_parse parse_shadowedText
  obtain ⟨hstatements, hdeclarations⟩ := Prod.mk.inj hread
  refine ⟨⟨tree, _, hparse, ?_, Prod.ext ?_ rfl, declaredWell_of_parse ?_⟩, ⟨_, gives_of_fst ?_⟩, ?_, .ident rfl,
    by decide, by decide⟩
  · rw [hstatements]
    exact Stmt.mem_partsAll_of_mem (by simp)
  · simp only [hdeclarations, shadowedDeclarations, recordAll, parse_positive, parse_shadowedSignature]
    rfl
  · simp only [hdeclarations, shadowedDeclarations, List.forall_mem_cons]
    exact ⟨⟨_, parse_positive, by decide⟩, ⟨_, parse_shadowedSignature, by decide⟩, by simp⟩
  · cbv
  · exact applies_singleton (rfl : globals "g" = some (.int 5)) (by decide) rfl (by decide)

end Liquid

end LayerCheck
