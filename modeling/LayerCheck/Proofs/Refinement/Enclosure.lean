import Mathlib
import LayerCheck.Proofs.Refinement.ArgumentMeaning
import LayerCheck.Proofs.Refinement.Bodies
import LayerCheck.Proofs.Refinement.Hereditary

/-! What a check knows is about what is in scope. Scopes come and go, with blocks of conditionals and bodies of
functions, while temporaries are numbered throughout; still a scope speaks of its own variables and temporaries
alone, if annotations speak of declared variables alone. A query about it then never lacks a name. -/
namespace LayerCheck

open Canonical

/-! ### Names in signatures -/

variable {D P P' : String → Prop}

/-- The predicates of an annotation mention names of some kind, besides those that it binds. -/
def LiquidType.ClosedOver (D : String → Prop) : LiquidType → Prop
  | value ty => ∀ x, ty.Mentions x → D x
  | function s => ∀ x, s.Mentions x → x ∈ boundNames s.args ∨ D x

instance [DecidablePred D] (ty : RefinedType) : Decidable (∀ x, ty.Mentions x → D x) :=
  decidable_of_iff (∀ r ∈ ty.refinement, ∀ x ∈ r.predicate.freeVars, x ≠ r.name → D x)
    ⟨fun h x ⟨r, hr, hx, hne⟩ => h r hr x hx hne, fun h r hr x hx hne => h x ⟨r, hr, hx, hne⟩⟩

instance [DecidablePred D] : (ty : LiquidType) → Decidable (ty.ClosedOver D)
  | .value ty => inferInstanceAs (Decidable (∀ x, ty.Mentions x → D x))
  | .function s =>
    decidable_of_iff ((∀ arg ∈ s.args, ∀ x, arg.Mentions x → x ∈ boundNames s.args ∨ D x) ∧
        ∀ x, s.ret.Mentions x → x ∈ boundNames s.args ∨ D x)
      ⟨fun h x hx => hx.elim (fun ⟨arg, harg, hx⟩ => h.1 arg harg x hx) (h.2 x),
        fun h => ⟨fun arg harg x hx => h x (.inl ⟨arg, harg, hx⟩), fun x hx => h x (.inr hx)⟩⟩

/-- A signature whose arguments mention earlier ones by position, and other names of some kind. -/
structure Signature.Ordered (D : String → Prop) (s : Signature) : Prop where
  args : ∀ i arg, s.args[i]? = some arg → ∀ x, arg.Mentions x → (∃ j < i, x = nameAt j) ∨ D x
  ret : ∀ x, s.ret.Mentions x → (∃ j < s.args.length, x = nameAt j) ∨ D x

namespace Canonical

theorem mem_boundNames {args : List RefinedType} {x : String} :
    x ∈ boundNames args ↔ ∃ r, some r ∈ args.map (·.refinement) ∧ r.name = x := by
  simp only [boundNames, List.mem_filterMap, Option.map_eq_some_iff, List.mem_map]
  constructor
  · rintro ⟨arg, harg, r, hr, rfl⟩
    exact ⟨r, ⟨arg, harg, hr⟩, rfl⟩
  · rintro ⟨r, ⟨arg, harg, hr⟩, rfl⟩
    exact ⟨arg, harg, r, hr, rfl⟩

theorem mem_boundNames_cons {arg : RefinedType} {args : List RefinedType} {x : String} :
    x ∈ boundNames (arg :: args) ↔ (∃ r, arg.refinement = some r ∧ r.name = x) ∨ x ∈ boundNames args := by
  simp only [mem_boundNames, List.map_cons, List.mem_cons, or_and_right, exists_or, eq_comm]

/-- In order, an argument mentions the bound names of earlier arguments only. -/
theorem mem_earlier_of_checkOrder {function : String} {position : Nat} {earlier : List String}
    {args : List RefinedType} (h : checkOrder function position earlier args = .ok ()) {i : Nat} {arg : RefinedType}
    (harg : args[i]? = some arg) {x : String} (hx : arg.Mentions x) (hbound : x ∈ boundNames args) :
    x ∈ earlier ∨ x ∈ boundNames (args.take i) := by
  induction args generalizing position earlier i with
  | nil => cases harg
  | cons first args ih =>
    rw [checkOrder] at h
    rw [mem_boundNames_cons] at hbound
    cases i with
    | zero =>
      cases harg
      obtain ⟨r, hr, hmem, hne⟩ := hx
      rw [hr] at h hbound
      dsimp only at h
      split at h
      next => cases h
      next hnone =>
        have hlater : x ∈ boundNames args := by
          refine hbound.resolve_left ?_
          rintro ⟨r', heq, rfl⟩
          cases heq
          exact hne rfl
        have horder := List.find?_eq_none.1 hnone x hmem
        simp only [Bool.and_eq_true, bne_iff_ne, Bool.not_eq_true', List.contains_iff_mem, not_and] at horder
        by_contra hearlier
        rw [not_or] at hearlier
        exact horder ⟨hne, by simpa using hearlier.1⟩ hlater
    | succ i =>
      rw [List.take_succ_cons, mem_boundNames_cons]
      rcases hbound with hbound | hbound
      · exact .inr (.inl hbound)
      cases hr : first.refinement with
      | none =>
        rw [hr] at h
        exact (ih h harg hbound).imp_right .inr
      | some r =>
        rw [hr] at h
        dsimp only at h
        split at h
        next => cases h
        next =>
          rcases ih h harg hbound with hmem | hmem
          · rcases List.mem_append.1 hmem with hmem | hmem
            · exact .inl hmem
            · exact .inr (.inl ⟨r, rfl, (List.mem_singleton.1 hmem).symm⟩)
          · exact .inr (.inr hmem)

/-- A predicate rewritten by the table of some arguments mentions their positions, and names that they do not
bind. -/
theorem Lists.mem_freeVars_subst {table : NameMap Term} {before : List (Option Refinement)} (h : Lists table before)
    {p : Term} {x : String} (hx : x ∈ (p.subst table.get?).freeVars) :
    (∃ j < before.length, x = nameAt j) ∨ x ∈ p.freeVars ∧ ∀ r, some r ∈ before → r.name ≠ x := by
  obtain ⟨y, hy, hxy⟩ := Term.mem_freeVars_subst hx
  cases ht : table.get? y with
  | none =>
    rw [ht] at hxy
    obtain rfl : x = y := List.mem_singleton.1 hxy
    refine .inr ⟨hy, fun r hr hrx => ?_⟩
    have hcontains := (h.bound x).2 ⟨r, hr, hrx⟩
    rw [NameMap.contains, ht] at hcontains
    cases hcontains
  | some t =>
    rw [ht] at hxy
    obtain ⟨j, hj, rfl, -⟩ := h.found y t ht
    exact .inl ⟨j, hj, List.mem_singleton.1 hxy⟩

/-- An argument that is kept mentions the positions of earlier ones, and names that these do not bind. -/
theorem Kept.mentions {args : List RefinedType} {i : Nat} {arg : RefinedType} {kept : Option Refinement}
    (h : Kept (args.map (·.refinement)) i arg.refinement kept) (harg : args[i]? = some arg) {x : String}
    (hx : RefinedType.Mentions ⟨arg.base, kept⟩ x) :
    (∃ j < i, x = nameAt j) ∨ arg.Mentions x ∧ x ∉ boundNames (args.take i) := by
  obtain ⟨r', hr', hmem, hne⟩ := hx
  cases hr : arg.refinement with
  | none =>
    rw [hr] at h
    cases h.symm.trans hr'
  | some r =>
    rw [hr] at h
    obtain ⟨table, hlists, -, rfl⟩ := h
    cases hr'
    rw [← List.map_take] at hlists
    rcases hlists.mem_freeVars_subst hmem with ⟨j, hj, rfl⟩ | ⟨hmem, hfree⟩
    · refine .inl ⟨j, ?_, rfl⟩
      have hji : j ≠ i := fun heq => hne (congrArg nameAt heq)
      rw [List.length_map, List.length_take] at hj
      omega
    · have htake : args.take (i + 1) = args.take i ++ [arg] := by rw [List.take_add_one, harg]; rfl
      rw [htake, List.map_append] at hfree
      refine .inr ⟨⟨r, hr, hmem, fun heq => ?_⟩, fun hbound => ?_⟩
      · exact hfree r (List.mem_append_right _ (List.mem_singleton.2 hr.symm)) heq.symm
      · obtain ⟨r', hr', hname⟩ := mem_boundNames.1 hbound
        exact hfree r' (List.mem_append_left _ hr') hname

theorem not_mem_boundNames_of_binder? {position : Nat} {args : List RefinedType} {x : String}
    (h : Signature.binder? position args x = none) : x ∉ boundNames args := by
  induction args generalizing position with
  | nil => exact fun hx => (by cases hx)
  | cons arg args ih =>
    rw [Signature.binder?, Option.or_eq_none_iff] at h
    rw [mem_boundNames_cons, not_or]
    refine ⟨?_, ih h.1⟩
    rintro ⟨r, hr, hname⟩
    rw [hr, Option.map_some, hname, if_pos rfl] at h
    cases h.2

/-- The result type mentions positions of arguments, and names that they do not bind. -/
theorem mentions_ret {args : List RefinedType} {ret ret' : RefinedType}
    (h : result (tableFrom 0 [] args) ret = .ok ret') {x : String} (hx : ret'.Mentions x) :
    (∃ j < args.length, x = nameAt j) ∨ ret.Mentions x ∧ x ∉ boundNames args := by
  unfold result at h
  cases hr : ret.refinement with
  | none =>
    rw [hr] at h
    cases h
    obtain ⟨r, hr', -⟩ := hx
    cases hr.symm.trans hr'
  | some r =>
    rw [hr] at h
    obtain ⟨p, hp, h⟩ := bind_eq_ok.1 h
    cases h
    obtain ⟨r', hr', hmem, hne⟩ := hx
    cases hr'
    rw [resolve_eq_ok hp] at hmem
    obtain ⟨y, hy, hxy⟩ := Term.mem_freeVars_subst hmem
    rw [NameMap.get?_erase] at hxy
    split at hxy
    next hyr => exact absurd ((List.mem_singleton.1 hxy).trans hyr) hne
    next hyr =>
      rw [get?_tableFrom] at hxy
      cases hb : Signature.binder? 0 args y with
      | none =>
        rw [hb] at hxy
        obtain rfl : x = y := List.mem_singleton.1 hxy
        exact .inr ⟨⟨r, hr, hy, hyr⟩, not_mem_boundNames_of_binder? hb⟩
      | some j =>
        rw [hb] at hxy
        obtain ⟨k, hk, rfl⟩ := binder?_eq_some hb
        rw [Nat.zero_add] at hxy
        exact .inl ⟨k, hk, List.mem_singleton.1 hxy⟩

/-- Positional names leave no others but those of declared variables. -/
theorem ordered_signature {function : String} {s s' : Signature} (hs : (LiquidType.function s).ClosedOver D)
    (h : signature function s = .ok s') : s'.Ordered D := by
  obtain ⟨_, horder, h⟩ := bind_eq_ok.1 h
  obtain ⟨refinements, hargs, h⟩ := bind_eq_ok.1 h
  obtain ⟨ret, hret, h⟩ := bind_eq_ok.1 h
  cases h
  obtain ⟨_, herror, -⟩ | ⟨out, hout, hlen, hkept⟩ := argumentsFrom_cases lists_nil (s.args.map (·.refinement))
  · cases herror.symm.trans hargs
  obtain rfl := Except.ok.inj (hout.symm.trans hargs)
  rw [List.length_map] at hlen
  refine ⟨fun i arg' harg' x hx => ?_, fun x hx => ?_⟩
  · obtain ⟨arg, refinement, harg, hrefinement, rfl⟩ := List.getElem?_zipWith_eq_some.1 harg'
    have hmapped : (s.args.map (·.refinement))[i]? = some arg.refinement := by rw [List.getElem?_map, harg]; rfl
    obtain ⟨kept, hi, hkept⟩ := hkept i _ hmapped
    cases hrefinement.symm.trans hi
    rw [List.length_nil, Nat.zero_add] at hkept
    refine (hkept.mentions harg hx).imp_right fun ⟨hmentions, hfree⟩ => ?_
    refine (hs x (.inl ⟨arg, List.mem_of_getElem? harg, hmentions⟩)).resolve_left fun hbound => ?_
    rcases mem_earlier_of_checkOrder horder harg hmentions hbound with hmem | hmem
    · cases hmem
    · exact hfree hmem
  · rw [List.length_zipWith, hlen, Nat.min_self]
    refine (mentions_ret hret hx).imp_right fun ⟨hmentions, hfree⟩ => ?_
    exact (hs x (.inr hmentions)).resolve_left hfree

end Canonical

/-! ### What a scope speaks of -/

namespace Scope

variable {s s' : Scope} {x : String}

/-- A name is that of a variable or temporary of a scope. -/
def Binds (s : Scope) (x : String) : Prop := (s.vars.get? x).isSome ∨ ∃ t ∈ s.temporaries, t.name = x

/-- Types of variables, facts about temporaries and conditions mention names of some kind. -/
structure SpeaksOf (s : Scope) (P : String → Prop) : Prop where
  vars : ∀ x w, (x, w) ∈ s.vars → ∀ y, w.ty.Mentions y → P y
  temporaries : ∀ t ∈ s.temporaries, ∀ y ∈ t.fact.freeVars, P y
  path : ∀ c ∈ s.path, ∀ y ∈ c.freeVars, P y

/-- A scope speaks of its own variables and temporaries. -/
def Enclosed (s : Scope) : Prop := s.SpeaksOf s.Binds

theorem Binds.mono (h : s.Binds x) (hs : s.Within s') : s'.Binds x := by
  rcases h with h | ⟨t, ht, rfl⟩
  · exact .inl (hs.vars x h)
  · exact .inr (hs.temporaries t ht)

theorem isSome_baseOf? : (s.baseOf? x).isSome ↔ s.Binds x := by
  unfold baseOf? Binds
  cases hx : s.vars.get? x with
  | some w => exact iff_of_true rfl (.inl rfl)
  | none => simp

namespace SpeaksOf

theorem mono (h : s.SpeaksOf P) (hP : ∀ x, P x → P' x) : s.SpeaksOf P' where
  vars x w hx y hy := hP y (h.vars x w hx y hy)
  temporaries t ht y hy := hP y (h.temporaries t ht y hy)
  path c hc y hy := hP y (h.path c hc y hy)

/-- The value of a variable moves to a temporary, whose name is the only new one. -/
theorem retire (h : s.SpeaksOf P) {w : VariableType} (hx : s.vars.get? x = some w) {t : String} (ht : P t) :
    (s.retire x w t).SpeaksOf P := by
  have hrename {p : Term} (hp : ∀ y ∈ p.freeVars, P y) : ∀ y ∈ (p.rename x t).freeVars, P y := by
    intro y hy
    rcases Term.mem_freeVars_rename hy with rfl | ⟨hy, -⟩
    · exact ht
    · exact hp y hy
  refine ⟨fun y w' hy z hz => ?_, fun t' ht' y hy => ?_, fun c hc => ?_⟩
  · obtain ⟨⟨y', w₀⟩, hw₀, heq⟩ := List.mem_map.1 hy
    cases heq
    rcases mentions_redirect hz with rfl | ⟨hz, -⟩
    · exact ht
    · exact h.vars _ _ hw₀ z hz
  · rcases List.mem_append.1 ht' with ht' | ht'
    · obtain ⟨t₀, ht₀, rfl⟩ := List.mem_map.1 ht'
      exact hrename (h.temporaries t₀ ht₀) y hy
    · obtain rfl := List.mem_singleton.1 ht'
      rcases RefinedType.mem_freeVars_predicateFor hy with hy | hy
      · exact h.vars x w (NameMap.mem_of_get? hx) y hy
      · rw [List.mem_singleton.1 hy]
        exact ht
  · obtain ⟨c₀, hc₀, rfl⟩ := List.mem_map.1 hc
    exact hrename (h.path c₀ hc₀)

theorem introduce (h : s.SpeaksOf P) {t : Term} (ht : ∀ y ∈ t.freeVars, P y) (base : BaseType) :
    ({ s with vars := s.vars.insert x ⟨.exactly base t, false⟩ } : Scope).SpeaksOf P := by
  refine ⟨fun y w hy z hz => ?_, h.temporaries, h.path⟩
  rcases NameMap.mem_insert hy with heq | hy
  · cases heq
    exact ht z (RefinedType.mentions_exactly hz)
  · exact h.vars y w hy z hz

theorem addTemporary (h : s.SpeaksOf P) {t : Temporary} (ht : ∀ y ∈ t.fact.freeVars, P y) :
    (s.addTemporary t).SpeaksOf P := by
  refine ⟨h.vars, fun t' ht' => ?_, h.path⟩
  rcases List.mem_append.1 ht' with ht' | ht'
  · exact h.temporaries t' ht'
  · rw [List.mem_singleton.1 ht']
    exact ht

theorem addCondition (h : s.SpeaksOf P) {c : Term} (hc : ∀ y ∈ c.freeVars, P y) : (s.addCondition c).SpeaksOf P := by
  refine ⟨h.vars, h.temporaries, fun c' hc' => ?_⟩
  rcases List.mem_append.1 hc' with hc' | hc'
  · exact h.path c' hc'
  · rw [List.mem_singleton.1 hc']
    exact hc

end SpeaksOf

theorem speaksOf_ofDeclared {types : NameMap RefinedType} (h : ∀ x ty, (x, ty) ∈ types → ∀ y, ty.Mentions y → P y) :
    (ofDeclared types).SpeaksOf P := by
  refine ⟨fun x w hx => ?_, fun t ht => (by cases ht), fun c hc => (by cases hc)⟩
  obtain ⟨⟨x', ty⟩, hty, heq⟩ := List.mem_map.1 hx
  cases heq
  exact h x ty hty

/-! ### Queries about a scope that is enclosed -/

variable {premise conclusion : Term}

theorem Enclosed.binds_of_mem_names (h : s.Enclosed) (hpremise : ∀ y ∈ premise.freeVars, s.Binds y) {a : Assumption}
    (ha : a ∈ s.assumptions premise) (hx : x ∈ a.names) : s.Binds x := by
  simp only [assumptions, List.mem_append, List.mem_map, List.mem_singleton] at ha
  rcases ha with ((⟨⟨y, w⟩, hy, rfl⟩ | ⟨t, ht, rfl⟩) | ⟨c, hc, rfl⟩) | rfl
  · have hbinds : s.Binds y := .inl (NameMap.isSome_get?_of_mem hy)
    rcases mem_names hx with heq | hx
    · cases heq
      exact hbinds
    · rcases RefinedType.mem_freeVars_predicateFor hx with hx | hx
      · exact h.vars y w hy x hx
      · rw [List.mem_singleton.1 hx]
        exact hbinds
  · rcases mem_names hx with heq | hx
    · cases heq
      exact .inr ⟨t, ht, rfl⟩
    · exact h.temporaries t ht x hx
  · exact h.path c hc x hx
  · exact hpremise x hx

/-- A query about names in scope has a binding for everything that matters. -/
theorem Enclosed.exists_query (h : s.Enclosed) (hpremise : ∀ y ∈ premise.freeVars, s.Binds y)
    (hconclusion : ∀ y ∈ conclusion.freeVars, s.Binds y) : ∃ q, s.query premise conclusion = .ok q := by
  have hbound : ∀ x ∈ relevantFrom (s.assumptions premise) conclusion.freeVars, (s.baseOf? x).isSome := by
    intro x hx
    rw [isSome_baseOf?]
    rcases mem_relevantFrom hx with hx | ⟨a, ha, hx⟩
    · exact hconclusion x hx
    · exact h.binds_of_mem_names hpremise ha hx
  obtain ⟨bs, hbs⟩ := exists_bindings hbound
  exact ⟨_, bind_eq_ok.2 ⟨bs, hbs, rfl⟩⟩

end Scope

namespace Liquid

/-! ### The scopes of a check -/

variable {ds : Declarations} {ctx : Context} {s s' : Scope}

def Declarations.Declares (ds : Declarations) (x : String) : Prop := (ds.vars.get? x).isSome

instance (ds : Declarations) : DecidablePred ds.Declares := fun _ => inferInstanceAs (Decidable (_ = true))

/-- Recorded types mention declared variables only, besides positional names in signatures. -/
structure Declarations.Closed (ds : Declarations) : Prop where
  vars : ∀ x ty, (x, ty) ∈ ds.vars → ∀ y, ty.Mentions y → ds.Declares y
  functions : ∀ f sig, ds.functions.get? f = some sig → sig.Ordered ds.Declares

theorem Recorded.closed {decls : List Declaration} (h : Recorded decls ds)
    (hclosed : ∀ d ∈ decls, ∀ ty, LiquidType.parse d.text = .ok ty → ty.ClosedOver ds.Declares) : ds.Closed := by
  refine ⟨fun x ty hx => ?_, fun f sig hf => ?_⟩
  · obtain ⟨d, hd, -, hparse⟩ := h.vars x ty (h.sorted.get? hx)
    exact hclosed d hd _ hparse
  · obtain ⟨d, hd, s₀, hparse, hsig⟩ := h.functions f sig hf
    exact ordered_signature (hclosed d hd _ hparse) hsig

/-- The context of a program, with a scope that speaks of itself; so does the result type in force. -/
structure Encloses (ds : Declarations) (ctx : Context) (s : Scope) : Prop where
  globals : ctx.globals = ds.vars
  functions : ctx.functions = ds.functions
  declared : ∀ x, ds.Declares x → (s.vars.get? x).isSome
  scope : s.Enclosed
  result : ∀ ty, ctx.result = some ty → ∀ y, ty.Mentions y → s.Binds y

theorem Encloses.grow (h : Encloses ds ctx s) (hs : s.Within s') (hscope : s'.Enclosed) : Encloses ds ctx s' where
  globals := h.globals
  functions := h.functions
  declared x hx := hs.vars x (h.declared x hx)
  scope := hscope
  result ty hty y hy := (h.result ty hty y hy).mono hs

/-- The terms of a call put names in scope into the types of its signature. -/
theorem Encloses.binds_of_subst (h : Encloses ds ctx s) {terms : NameMap Term} {count : Nat}
    (hterms : Supplies s.Binds terms count) {ty : RefinedType}
    (hty : ∀ x, ty.Mentions x → (∃ j < count, x = nameAt j) ∨ ds.Declares x) {y : String}
    (hy : (ty.subst terms).Mentions y) : s.Binds y :=
  hterms.names_subst (fun x hx => (hty x hx).imp_right fun hx => .inl (h.declared x hx)) hy

/-! ### Bodies -/

section

variable {f : RefinedType → RefinedType} {pairs : List (String × RefinedType)} {x : String}

theorem isSome_declareAll (h : x ∈ pairs.map (·.1) ∨ (s.vars.get? x).isSome) :
    ((declareAll f s pairs).vars.get? x).isSome := by
  induction pairs generalizing s with
  | nil => exact h.resolve_left fun hx => (by cases hx)
  | cons pair pairs ih =>
    refine ih ?_
    rcases h with h | h
    · rcases List.mem_cons.1 h with rfl | h
      · have hinsert := NameMap.get?_insert s.vars pair.1 pair.1 ⟨f pair.2, true⟩
        rw [if_pos rfl] at hinsert
        exact .inr (Option.isSome_iff_exists.2 ⟨_, hinsert⟩)
      · exact .inl h
    · exact .inr ((Scope.Within.introduce s pair.1 _).vars x h)

theorem mem_declareAll {w : VariableType} (h : (x, w) ∈ (declareAll f s pairs).vars) :
    (x, w) ∈ s.vars ∨ ∃ ty, (x, ty) ∈ pairs ∧ w.ty = f ty := by
  induction pairs generalizing s with
  | nil => exact .inl h
  | cons pair pairs ih =>
    rcases ih h with h | ⟨ty, hty, hw⟩
    · rcases NameMap.mem_insert h with heq | h
      · cases heq
        exact .inr ⟨pair.2, List.mem_cons_self, rfl⟩
      · exact .inl h
    · exact .inr ⟨ty, List.mem_cons_of_mem _ hty, hw⟩

theorem supplies_parameterTerms {params : List String} (h : ∀ p ∈ params, P p) :
    Supplies P (parameterTerms params) params.length := by
  refine ⟨fun x t hx => ?_, fun i hi => ?_⟩
  · rw [get?_parameterTerms] at hx
    obtain ⟨p, hp, rfl⟩ := Option.map_eq_some_iff.1 hx
    obtain ⟨i, hi, rfl⟩ := slot?_eq_some hp
    rw [Nat.zero_add]
    refine ⟨⟨i, (List.getElem?_eq_some_iff.1 hi).1, rfl⟩, fun y hy => ?_⟩
    rw [List.mem_singleton.1 hy]
    exact h p (List.mem_of_getElem? hi)
  · have hslot := slot?_nameAt 0 params i
    rw [Nat.zero_add] at hslot
    rw [get?_parameterTerms, Option.isSome_map, hslot, List.getElem?_eq_getElem hi]
    rfl

end

/-- The body of a function begins with a scope that speaks of declared variables and parameters. -/
theorem Encloses.body (h : Encloses ds ctx s) (hds : ds.Closed) {f : String} {params : List String} {sig : Signature}
    (hsig : ctx.functions.get? f = some sig) (hcount : sig.args.length = params.length) :
    Encloses ds { ctx with result := some (sig.ret.subst (parameterTerms params)), inBranch := false }
      (bodyScope ctx params sig) := by
  have hordered := hds.functions f sig (h.functions ▸ hsig)
  have hdeclared : ∀ x, ds.Declares x → ((bodyScope ctx params sig).vars.get? x).isSome := by
    intro x hx
    rw [bodyScope_eq]
    refine isSome_declareAll (.inr ?_)
    rw [get?_vars_ofDeclared, Option.isSome_map, h.globals]
    exact hx
  have hterms : Supplies (bodyScope ctx params sig).Binds (parameterTerms params) params.length := by
    refine supplies_parameterTerms fun p hp => .inl ?_
    rw [bodyScope_eq]
    refine isSome_declareAll (.inl ?_)
    rwa [List.map_fst_zip (Nat.le_of_eq hcount.symm)]
  have hsubst {ty : RefinedType} (hty : ∀ x, ty.Mentions x → (∃ j < params.length, x = nameAt j) ∨ ds.Declares x)
      {y : String} (hy : (ty.subst (parameterTerms params)).Mentions y) : (bodyScope ctx params sig).Binds y :=
    hterms.names_subst (fun x hx => (hty x hx).imp_right fun hx => .inl (hdeclared x hx)) hy
  refine ⟨h.globals, h.functions, hdeclared, ⟨fun x w hx y hy => ?_, ?_, ?_⟩, fun ty hty y hy => ?_⟩
  · rw [bodyScope_eq] at hx
    rcases mem_declareAll hx with hx | ⟨arg, harg, hw⟩
    · obtain ⟨⟨x', ty⟩, hty, heq⟩ := List.mem_map.1 hx
      cases heq
      rw [h.globals] at hty
      exact .inl (hdeclared y (hds.vars x ty hty y hy))
    · rw [hw] at hy
      refine hsubst (fun z hz => ?_) hy
      obtain ⟨i, hi⟩ := List.mem_iff_getElem?.1 (List.of_mem_zip harg).2
      refine (hordered.args i arg hi z hz).imp_left fun ⟨j, hj, hzj⟩ => ⟨j, ?_, hzj⟩
      exact Nat.lt_trans hj (hcount ▸ (List.getElem?_eq_some_iff.1 hi).1)
  · rw [bodyScope_temporaries]
    exact fun t ht => (by cases ht)
  · rw [bodyScope_path]
    exact fun c hc => (by cases hc)
  · cases hty
    exact hsubst (hcount ▸ hordered.ret) hy

/-! ### Points -/

/-- A check of statements with plain names keeps scopes enclosed. -/
theorem hereditary_encloses {parts : List Stmt} (hnames : ∀ s ∈ parts, ∀ x ∈ s.introduced, Plain x)
    (hds : ds.Closed) : Hereditary parts (fun ctx s _ => Encloses ds ctx s) fun s _ x => s.Binds x where
  plain hpart := hnames _ hpart _ (List.mem_singleton_self _)
  later h _ := h
  names h hs _ := h.mono hs
  var _ hx := .inl (by rw [hx]; rfl)
  temporary := .inr
  retire {ctx s made x w} h hx := by
    refine h.grow (.retire ..) ((h.scope.mono fun y hy => hy.mono (.retire ..)).retire hx ?_)
    exact .inr (Scope.exists_temporary_retire ..)
  introduce h _ _ ht _ base := by
    refine h.grow (.introduce ..) ((h.scope.mono fun y hy => hy.mono (.introduce ..)).introduce (fun y hy => ?_) base)
    exact (ht y hy).mono (.introduce ..)
  returned {ctx s made f sig terms} h hsig hterms := by
    have hordered := hds.functions f sig (h.functions ▸ hsig)
    refine h.grow (.addTemporary ..)
      ((h.scope.mono fun y hy => hy.mono (.addTemporary ..)).addTemporary fun y hy => ?_)
    rcases RefinedType.mem_freeVars_predicateFor hy with hy | hy
    · exact (h.binds_of_subst hterms hordered.ret hy).mono (.addTemporary ..)
    · rw [List.mem_singleton.1 hy]
      exact .inr (Scope.exists_temporary_addTemporary ..)
  condition h hc := ⟨h.globals, h.functions, h.declared, h.scope.addCondition hc, h.result⟩
  body h _ hsig hcount := h.body hds hsig hcount

/-- A value whose term and type are about names in scope. -/
structure Meaning.Within (m : Meaning) (s : Scope) : Prop where
  term : ∀ y ∈ m.term.freeVars, s.Binds y
  ty : ∀ y, m.ty.Mentions y → s.Binds y

/-- What a task brings with it is about names in scope: the terms of earlier arguments, and a value to store. The
types of later arguments mention positions before them. -/
def Task.InScope (ds : Declarations) (s : Scope) : Task → Prop
  | .args position earlier _ params => Supplies s.Binds earlier position ∧
    ∀ i param, params[i]? = some param → ∀ x, param.Mentions x → (∃ j < position + i, x = nameAt j) ∨ ds.Declares x
  | .store _ _ m => m.Within s
  | _ => True

section

variable {σ : Type} {answer : Answerer σ} {parts : List Stmt} {st st' : State σ}
variable (hh : Hereditary parts (fun ctx s _ => Encloses ds ctx s) fun s _ x => s.Binds x)
variable (hds : ds.Closed)

include hh hds

theorem within_of_meaning (h : Encloses ds ctx st.scope) {e : Expr} {m : Meaning}
    (hm : Gives (meaning answer ctx e) st m st') : Encloses ds ctx st'.scope ∧ m.Within st'.scope := by
  obtain ⟨h', hterm⟩ := hh.keeps_meaning e h hm
  refine ⟨h', hterm, ?_⟩
  cases e with
  | num loc n | bool loc b =>
    rw [meaning, gives_pure] at hm
    obtain ⟨rfl, rfl⟩ := hm
    exact fun y hy => hterm y (RefinedType.mentions_exactly hy)
  | ident loc x =>
    simp only [meaning, gives_bind, gives_getScope] at hm
    obtain ⟨_, _, ⟨rfl, rfl⟩, hm⟩ := hm
    split at hm
    next w hx =>
      obtain ⟨rfl, rfl⟩ := gives_pure.1 hm
      exact h.scope.vars x w (NameMap.mem_of_get? hx)
    next => exact absurd hm gives_throw
  | call loc f es =>
    simp only [meaning, gives_bind, gives_ofExcept, gives_freshTemporary, gives_modifyScope, gives_pure] at hm
    obtain ⟨sig, _, ⟨hsig, rfl⟩, terms, st₁, hargs, _, _, ⟨rfl, rfl⟩, _, _, rfl, rfl, rfl⟩ := hm
    obtain ⟨hsig, hcount⟩ := gives_signatureFor hsig
    obtain ⟨h₁, hterms⟩ := hh.keeps_checkArgs es h (.nil _) hcount.symm hargs
    rw [Nat.zero_add] at hterms
    have hordered := hds.functions f sig (h.functions ▸ hsig)
    exact fun y hy => (h₁.binds_of_subst hterms hordered.ret hy).mono (.addTemporary ..)
  | binary loc op l r =>
    simp only [meaning, gives_bind, gives_ofExcept, gives_pure] at hm
    obtain ⟨left, st₁, hl, right, st₂, hr, base, _, ⟨-, rfl⟩, rfl, rfl⟩ := hm
    exact fun y hy => hterm y (RefinedType.mentions_exactly hy)
  | unary loc op e =>
    simp only [meaning, gives_bind, gives_ofExcept, gives_pure] at hm
    obtain ⟨inner, st₁, he, _, _, ⟨-, rfl⟩, rfl, rfl⟩ := hm
    exact fun y hy => hterm y (RefinedType.mentions_exactly hy)
  | malformed loc kind =>
    rw [meaning] at hm
    exact absurd hm gives_throw

theorem Task.inScope_of_leads {p q : Point σ} (h : Leads answer p q) (hJ : Encloses ds p.ctx p.st.scope)
    (hp : p.task.InScope ds p.st.scope) : q.task.InScope ds q.st.scope := by
  cases h with
  | store _ he => exact (within_of_meaning hh hds hJ he).2
  | args hsig =>
    obtain ⟨hsig, -⟩ := gives_signatureFor hsig
    refine ⟨.nil _, fun i param hi x hx => ?_⟩
    rw [Nat.zero_add]
    exact (hds.functions _ _ (hJ.functions ▸ hsig)).args i param hi x hx
  | laterArgs he hsub =>
    obtain ⟨hearlier, hparams⟩ := hp
    obtain ⟨-, hm⟩ := within_of_meaning hh hds hJ he
    have hgrows := (advances_meaning _ he).1.within
    have hgrows' := (advances_checkSubtype hsub).2.1.within
    refine ⟨?_, fun i param hi x hx => ?_⟩
    · exact (hearlier.mono fun y hy => (hy.mono hgrows).mono hgrows').insert fun y hy => (hm.term y hy).mono hgrows'
    · rw [Nat.add_assoc, Nat.add_comm 1]
      exact hparams (i + 1) param hi x hx
  | _ => trivial

/-- The scope is enclosed at all points of a check, and so is what a task brings with it. -/
theorem inScope_of_reaches {p q : Point σ} (h : Reaches answer p q) (hparts : p.task.Within parts)
    (hJ : Encloses ds p.ctx p.st.scope) (hp : p.task.InScope ds p.st.scope) :
    Encloses ds q.ctx q.st.scope ∧ q.task.InScope ds q.st.scope := by
  induction h with
  | refl => exact ⟨hJ, hp⟩
  | tail hreach hlead ih =>
    obtain ⟨hparts, -⟩ := hh.holds_of_reaches hreach hparts hJ
    exact ⟨(hh.keeps_leads hlead ⟨hparts, ih.1⟩).2, Task.inScope_of_leads hh hds hlead ih.1 ih.2⟩

/-- What has to be shown at a point is a question about names in scope. -/
theorem Obliges.exists_query {p : Point σ} (hJ : Encloses ds p.ctx p.st.scope) (hp : p.task.InScope ds p.st.scope)
    {m : Meaning} {expected : RefinedType} {loc : Location} (h : Obliges answer p st m expected loc) :
    st.scope.Enclosed ∧
      ∃ q, st.scope.query (m.ty.predicateFor m.term) (expected.predicateFor m.term) = .ok q := by
  have ask (hscope : st.scope.Enclosed) (hm : m.Within st.scope)
      (hexpected : ∀ y, expected.Mentions y → st.scope.Binds y) : st.scope.Enclosed ∧
        ∃ q, st.scope.query (m.ty.predicateFor m.term) (expected.predicateFor m.term) = .ok q := by
    refine ⟨hscope, hscope.exists_query (fun y hy => ?_) fun y hy => ?_⟩
    · exact (RefinedType.mem_freeVars_predicateFor hy).elim (hm.ty y) (hm.term y)
    · exact (RefinedType.mem_freeVars_predicateFor hy).elim (hexpected y) (hm.term y)
  cases h with
  | arg he =>
    obtain ⟨hearlier, hparams⟩ := hp
    obtain ⟨h₁, hm⟩ := within_of_meaning hh hds hJ he
    have hterms := hearlier.mono fun y hy => hy.mono (advances_meaning _ he).1.within
    exact ask h₁.scope hm fun y hy => h₁.binds_of_subst hterms (hparams 0 _ rfl) hy
  | returned hresult he =>
    obtain ⟨h₁, hm⟩ := within_of_meaning hh hds hJ he
    exact ask h₁.scope hm (h₁.result _ hresult)
  | stored hx => exact ask hJ.scope hp (hJ.scope.vars _ _ (NameMap.mem_of_get? hx))

end

/-- At every point of the check of a program whose annotations mention declared variables only, besides the names
that they bind, what is known in the scope and the result type in force are about variables and temporaries of that
scope. So no query for what has to be shown lacks a name: a check that fails for want of a name does so at a point
whose task is to use that name. -/
theorem enclosed_at_every_point {text : String} {tree : Tree} (hparse : Tree.parse text = .ok tree)
    {table table' : FactTable}
    (hds : (recordAll ⟨[], []⟩ (tree.declarationsFor layerName)).run.run table = (.ok ds, table'))
    (hclosed : ∀ d ∈ tree.declarationsFor layerName, ∀ ty, LiquidType.parse d.text = .ok ty →
      ty.ClosedOver ds.Declares)
    {σ : Type} (answer : Answerer σ) (solver : σ) :
    (∀ p, Reaches answer (.start ds.vars ds.functions solver tree.statements) p →
      p.st.scope.Enclosed ∧
      (∀ ty, p.ctx.result = some ty → ∀ y, ty.Mentions y → p.st.scope.Binds y) ∧
      ∀ st m expected loc, Obliges answer p st m expected loc → st.scope.Enclosed ∧
        ∃ q, st.scope.query (m.ty.predicateFor m.term) (expected.predicateFor m.term) = .ok q) ∧
    ∀ fault x layer, (checkProgram answer solver ds.vars ds.functions tree.statements).1 = .error fault →
      fault.cause = .unresolved x layer →
      ∃ p, Reaches answer (.start ds.vars ds.functions solver tree.statements) p ∧ Lacks p fault := by
  have hnames : tree.Named Plain := fun loc x hx => plain_of_identLike (Tree.parse_named hparse loc x hx)
  have hrecorded := recorded_of_recordAll hds
  have hds' : ds.Closed := hrecorded.closed hclosed
  have hh : Hereditary (Stmt.partsAll tree.statements) (fun ctx s _ => Encloses ds ctx s) fun s _ x => s.Binds x :=
    hereditary_encloses (fun s hs x hx => Stmt.named_introduced hnames hs hx) hds'
  have hdeclared : ∀ x, ds.Declares x → ((Scope.ofDeclared ds.vars).vars.get? x).isSome := by
    intro x hx
    rw [get?_vars_ofDeclared, Option.isSome_map]
    exact hx
  have hstart : Encloses ds ⟨ds.functions, ds.vars, none, false⟩ (.ofDeclared ds.vars) := by
    refine ⟨rfl, rfl, hdeclared, Scope.speaksOf_ofDeclared fun x ty hx y hy => ?_, fun ty hty => (by cases hty)⟩
    exact .inl (hdeclared y (hds'.vars x ty hx y hy))
  have hpoint {p : Point σ} (hp : Reaches answer (.start ds.vars ds.functions solver tree.statements) p) :
      Encloses ds p.ctx p.st.scope ∧ p.task.InScope ds p.st.scope :=
    inScope_of_reaches hh hds' hp (fun _ => id) hstart trivial
  refine ⟨fun p hp => ?_, fun fault x layer hfault hcause => ?_⟩
  · obtain ⟨hJ, htask⟩ := hpoint hp
    exact ⟨hJ.scope, hJ.result, fun st m expected loc h => h.exists_query hh hds' hJ htask⟩
  · obtain ⟨p, hp, hblames⟩ := blames_of_checkAll tree.statements hfault
    refine ⟨p, hp, ?_⟩
    cases hblames with
    | lacks hlacks => exact hlacks
    | query hobliges hquery =>
      obtain ⟨hJ, htask⟩ := hpoint hp
      obtain ⟨-, q, hq⟩ := hobliges.exists_query hh hds' hJ htask
      cases hquery.symm.trans hq
    | other hother => exact absurd hcause (hother x layer)

/-- A function that may give `g` another value before it returns. -/
def raisedText : String :=
  "g : liquid : Int\nf : liquid : \x7bx:Int | x > g\x7d -> \x7br:Int | r > x\x7d\n" ++
    "def f(a) \x7b if a > 5 \x7b g = a \x7d\nreturn f(a + 1) \x7d"

def raisedDeclarations : List Declaration :=
  [⟨⟨1, 1⟩, "g", "liquid", "Int"⟩, ⟨⟨2, 1⟩, "f", "liquid", "\x7bx:Int | x > g\x7d -> \x7br:Int | r > x\x7d"⟩]

def raisedBranch : Stmt :=
  .branch ⟨3, 12⟩ (.binary ⟨3, 15⟩ .gt (.ident ⟨3, 15⟩ "a") (.num ⟨3, 19⟩ 5))
    [.assign ⟨3, 23⟩ "g" (.ident ⟨3, 27⟩ "a")] []

def raisedSum : Expr := .binary ⟨4, 10⟩ .add (.ident ⟨4, 10⟩ "a") (.num ⟨4, 14⟩ 1)

def raisedFunction : Stmt := .funDef ⟨3, 1⟩ "f" ["a"] [raisedBranch, .ret ⟨4, 1⟩ (some (.call ⟨4, 8⟩ "f" [raisedSum]))]

def raisedTypes : Declarations := ⟨[("g", ⟨.int, none⟩)], [("f", grownSignature)]⟩

theorem parse_raisedText : (Tree.parse raisedText).toOption.map
    (fun tree => (tree.statements, tree.declarationsFor layerName)) =
      some (raisedDeclarations.map .declare ++ [raisedFunction], raisedDeclarations) := by cbv

theorem parse_int : LiquidType.parse "Int" = .ok (.value ⟨.int, none⟩) := by cbv

theorem recordAll_raisedDeclarations : ∃ table,
    (recordAll ⟨[], []⟩ raisedDeclarations).run.run .empty = (.ok raisedTypes, table) := by
  refine ⟨_, Prod.ext ?_ rfl⟩
  simp only [raisedDeclarations, recordAll, parse_int, parse_grownSignature]
  rfl

theorem closedOver_raisedDeclarations : ∀ d ∈ raisedDeclarations, ∀ ty, LiquidType.parse d.text = .ok ty →
    ty.ClosedOver raisedTypes.Declares := by
  simp only [raisedDeclarations, List.forall_mem_cons, parse_int, parse_grownSignature, Except.ok.injEq,
    forall_eq']
  exact ⟨by decide, by decide, fun d hd => (by cases hd)⟩

/-- The context of the body. -/
def raisedContext : Context :=
  ⟨raisedTypes.functions, raisedTypes.vars, some (.refined .int "r" (.binary .gt (.var "r") (.var "a"))), false⟩

/-- The state after the conditional. The temporary that its block made is gone; another one has the value that `g`
had before it. -/
def raisedState : State Unit where
  scope := ⟨[("a", ⟨.refined .int "$arg0" (.binary .gt (.var "$arg0") (.var "g")), true⟩), ("g", ⟨⟨.int, none⟩, true⟩)],
    [⟨"$t1", .int, .bool true⟩], []⟩
  assigned := ["g"]
  made := 2
  solver := ()

theorem checkStmt_raisedBranch : Gives (checkStmt (fun _ u => (.ok true, u)) raisedContext raisedBranch)
    ⟨bodyScope ⟨raisedTypes.functions, raisedTypes.vars, none, false⟩ ["a"] grownSignature, [], 0, ()⟩ ()
    raisedState := by
  rw [Gives]
  cbv

/-- The argument of the call. -/
def raisedPoint : Point Unit := ⟨raisedContext, raisedState, .args 0 [] [raisedSum] grownSignature.args⟩

theorem reaches_raisedPoint : Reaches (fun _ u => (.ok true, u))
    (.start raisedTypes.vars raisedTypes.functions () (raisedDeclarations.map .declare ++ [raisedFunction]))
    raisedPoint :=
  .head (.rest rfl) <| .head (.rest rfl) <| .head .first <| .head (.body rfl) <|
    .head (.rest checkStmt_raisedBranch) <| .head .first <| .head (.returned rfl) <| .single (.args rfl)

def raisedArgument : Meaning := .exact .int (.binary .add (.var "a") (.int 1))

def aboveG : RefinedType := .refined .int "$arg0" (.binary .gt (.var "$arg0") (.var "g"))

theorem obliges_raisedPoint :
    Obliges (fun _ u => (.ok true, u)) raisedPoint raisedState raisedArgument aboveG ⟨4, 10⟩ :=
  .arg (by rw [Gives]; cbv)

/-- After the conditional, the argument of the call has to exceed `g`, and there is a query for that. -/
theorem raisedText_enclosed : ∃ tree, Tree.parse raisedText = .ok tree ∧
    Reaches (fun _ u => (.ok true, u)) (.start raisedTypes.vars raisedTypes.functions () tree.statements)
      raisedPoint ∧
    Obliges (fun _ u => (.ok true, u)) raisedPoint raisedState raisedArgument aboveG ⟨4, 10⟩ ∧
    raisedState.scope.Enclosed ∧
    ∃ q, raisedState.scope.query (raisedArgument.ty.predicateFor raisedArgument.term)
      (aboveG.predicateFor raisedArgument.term) = .ok q := by
  obtain ⟨tree, hparse, hread⟩ := Tree.exists_parse parse_raisedText
  obtain ⟨hstatements, hdeclarations⟩ := Prod.mk.inj hread
  obtain ⟨table, hds⟩ := recordAll_raisedDeclarations
  rw [← hdeclarations] at hds
  obtain ⟨hpoint, -⟩ := enclosed_at_every_point hparse hds (hdeclarations ▸ closedOver_raisedDeclarations)
    (fun _ u => (.ok true, u)) ()
  have hreach := hstatements ▸ reaches_raisedPoint
  exact ⟨tree, hparse, hreach, obliges_raisedPoint, (hpoint _ hreach).2.2 _ _ _ _ obliges_raisedPoint⟩

end Liquid

end LayerCheck
