import Mathlib
import LayerCheck.Proofs.Refinement.Bodies
import LayerCheck.Proofs.Refinement.Hereditary

/-! Fresh temporaries. A check numbers the temporaries that it makes, and nothing but an annotation can bring in the
name of one that is still to come: the names of a program text cannot be mistaken for temporaries, but those in an
annotation can. So a temporary is fresh exactly when no recorded type spells its name. -/
namespace LayerCheck

/-! ### Names in types and scopes -/

namespace RefinedType

/-- The names in a type, its bound name among them. -/
def spelled (ty : RefinedType) : List String :=
  match ty.refinement with
  | some r => r.name :: r.predicate.freeVars
  | none => []

variable {ty : RefinedType} {x : String}

theorem mem_spelled : x ∈ ty.spelled ↔
    ∃ r, ty.refinement = some r ∧ (x = r.name ∨ x ∈ r.predicate.freeVars) := by
  unfold spelled
  cases ty.refinement with
  | none => simp
  | some r => simp

theorem Mentions.spelled (h : ty.Mentions x) : x ∈ ty.spelled := by
  obtain ⟨r, hr, hx, -⟩ := h
  exact mem_spelled.2 ⟨r, hr, .inr hx⟩

theorem mem_spelled_exactly {base : BaseType} {t : Term} (h : x ∈ (exactly base t).spelled) :
    (∃ n, x = boundName n) ∨ x ∈ t.freeVars := by
  have hname : ∃ n, (if t.freeVars.contains (boundName 0) then boundName 1 else boundName 0) = boundName n := by
    split
    · exact ⟨1, rfl⟩
    · exact ⟨0, rfl⟩
  obtain ⟨n, hn⟩ := hname
  rw [exactly, hn] at h
  obtain ⟨r, hr, hx⟩ := mem_spelled.1 h
  cases hr
  rcases hx with hx | hx
  · exact .inl ⟨n, hx⟩
  · rcases Term.mem_freeVars_binary.1 hx with hx | hx
    · exact .inl ⟨n, List.mem_singleton.1 hx⟩
    · exact .inr hx

/-- A substitution brings in the names of the terms put in, and perhaps another bound name. -/
theorem mem_spelled_subst {m : NameMap Term} (h : x ∈ (ty.subst m).spelled) :
    (∃ n, x = boundName n) ∨ x ∈ ty.spelled ∨ ∃ y t, m.get? y = some t ∧ x ∈ t.freeVars := by
  obtain ⟨r', hr', hx⟩ := mem_spelled.1 h
  unfold subst at hr'
  cases hr : ty.refinement with
  | none =>
    rw [hr] at hr'
    cases hr.symm.trans hr'
  | some r =>
    have old {y : String} (hy : y ∈ r.predicate.freeVars) : y ∈ ty.spelled := mem_spelled.2 ⟨r, hr, .inr hy⟩
    have put {p : Term} (hp : ∀ y ∈ p.freeVars, (∃ n, y = boundName n) ∨ y ∈ ty.spelled)
        (hx : x ∈ (p.subst (m.erase r.name).get?).freeVars) :
        (∃ n, x = boundName n) ∨ x ∈ ty.spelled ∨ ∃ y t, m.get? y = some t ∧ x ∈ t.freeVars := by
      obtain ⟨y, hy, hxy⟩ := Term.mem_freeVars_subst hx
      cases ht : (m.erase r.name).get? y with
      | none =>
        rw [ht] at hxy
        rw [List.mem_singleton.1 hxy]
        exact (hp y hy).imp_right .inl
      | some t =>
        rw [ht] at hxy
        rw [NameMap.get?_erase] at ht
        split at ht
        next => cases ht
        next => exact .inr (.inr ⟨y, t, ht, hxy⟩)
    rw [hr] at hr'
    dsimp only at hr'
    obtain ⟨n, hn⟩ := exists_freshBoundName (incoming (m.erase r.name) r.predicate ++ r.predicate.freeVars)
    split at hr'
    next =>
      cases hr'
      rcases hx with hx | hx
      · exact .inl ⟨n, hx.trans hn⟩
      · refine put (fun y hy => ?_) hx
        rcases Term.mem_freeVars_rename hy with rfl | ⟨hy, -⟩
        · exact .inl ⟨n, hn⟩
        · exact .inr (old hy)
    next =>
      cases hr'
      rcases hx with hx | hx
      · exact .inr (.inl (mem_spelled.2 ⟨r, hr, .inl hx⟩))
      · exact put (fun y hy => .inr (old hy)) hx

end RefinedType

def Signature.spelled (s : Signature) : List String := s.args.flatMap (·.spelled) ++ s.ret.spelled

/-- The names in recorded types. -/
def Liquid.Declarations.spelled (ds : Declarations) : List String :=
  ds.vars.flatMap (·.2.spelled) ++ ds.functions.flatMap (·.2.spelled)

namespace Scope

/-- The names in a scope: those of variables and temporaries, and those in types, facts and conditions. -/
def spelled (s : Scope) : List String :=
  s.vars.flatMap (fun (x, w) => x :: w.ty.spelled) ++ s.temporaries.flatMap (fun t => t.name :: t.fact.freeVars) ++
    s.path.flatMap (·.freeVars)

theorem forall_spelled {s : Scope} {P : String → Prop} : (∀ x ∈ s.spelled, P x) ↔
    (∀ y w, (y, w) ∈ s.vars → P y ∧ ∀ x ∈ w.ty.spelled, P x) ∧
      (∀ t ∈ s.temporaries, P t.name ∧ ∀ x ∈ t.fact.freeVars, P x) ∧ ∀ c ∈ s.path, ∀ x ∈ c.freeVars, P x := by
  simp only [spelled, List.forall_mem_append, List.forall_mem_flatMap, List.forall_mem_cons, Prod.forall, and_assoc]

theorem mem_spelled_redirect {w : VariableType} {old new x : String}
    (h : x ∈ (VariableType.redirect old new w).ty.spelled) : x = new ∨ x ∈ w.ty.spelled := by
  obtain ⟨r, hr, hx⟩ := RefinedType.mem_spelled.1 h
  obtain ⟨r', hr', hname, hpred⟩ := refinement_redirect hr
  rcases hx with hx | hx
  · exact .inr (RefinedType.mem_spelled.2 ⟨r', hr', .inl (hx.trans hname)⟩)
  · rcases hpred with ⟨rfl, -⟩ | ⟨-, hpred⟩
    · exact .inr (RefinedType.mem_spelled.2 ⟨r, hr', .inr hx⟩)
    · rw [hpred] at hx
      rcases Term.mem_freeVars_rename hx with hx | ⟨hx, -⟩
      · exact .inl hx
      · exact .inr (RefinedType.mem_spelled.2 ⟨r', hr', .inr hx⟩)

variable {s : Scope} {P : String → Prop}

/-- Moving a value brings in the name of the temporary alone. -/
theorem forall_spelled_retire (h : ∀ x ∈ s.spelled, P x) {x : String} {w : VariableType}
    (hx : s.vars.get? x = some w) {t : String} (ht : P t) : ∀ y ∈ (s.retire x w t).spelled, P y := by
  obtain ⟨hvars, htemporaries, hpath⟩ := forall_spelled.1 h
  have renamed {c : Term} (hc : ∀ y ∈ c.freeVars, P y) : ∀ y ∈ (c.rename x t).freeVars, P y := by
    intro y hy
    rcases Term.mem_freeVars_rename hy with rfl | ⟨hy, -⟩
    · exact ht
    · exact hc y hy
  refine forall_spelled.2 ⟨fun y w' hy => ?_, fun t' ht' => ?_, fun c hc => ?_⟩
  · obtain ⟨⟨y, w₀⟩, hy₀, heq⟩ := List.mem_map.1 hy
    cases heq
    refine ⟨(hvars y w₀ hy₀).1, fun z hz => ?_⟩
    rcases mem_spelled_redirect hz with rfl | hz
    · exact ht
    · exact (hvars y w₀ hy₀).2 z hz
  · rcases List.mem_append.1 ht' with ht' | ht'
    · obtain ⟨t₀, ht₀, rfl⟩ := List.mem_map.1 ht'
      exact ⟨(htemporaries t₀ ht₀).1, renamed (htemporaries t₀ ht₀).2⟩
    · obtain rfl := List.mem_singleton.1 ht'
      refine ⟨ht, fun y hy => ?_⟩
      rcases RefinedType.mem_freeVars_predicateFor hy with hy | hy
      · exact (hvars x w (NameMap.mem_of_get? hx)).2 y hy.spelled
      · rw [List.mem_singleton.1 hy]
        exact ht
  · obtain ⟨c₀, hc₀, rfl⟩ := List.mem_map.1 hc
    exact renamed (hpath c₀ hc₀)

theorem forall_spelled_introduce (h : ∀ x ∈ s.spelled, P x) {x : String} (hx : P x) {t : Term}
    (ht : ∀ y ∈ t.freeVars, P y) (hbound : ∀ n, P (boundName n)) (base : BaseType) :
    ∀ y ∈ ({ s with vars := s.vars.insert x ⟨.exactly base t, false⟩ } : Scope).spelled, P y := by
  obtain ⟨hvars, htemporaries, hpath⟩ := forall_spelled.1 h
  refine forall_spelled.2 ⟨fun y w hy => ?_, htemporaries, hpath⟩
  rcases NameMap.mem_insert hy with heq | hy
  · cases heq
    refine ⟨hx, fun z hz => ?_⟩
    rcases RefinedType.mem_spelled_exactly hz with ⟨n, rfl⟩ | hz
    · exact hbound n
    · exact ht z hz
  · exact hvars y w hy

theorem forall_spelled_addTemporary (h : ∀ x ∈ s.spelled, P x) {t : Temporary} (hname : P t.name)
    (hfact : ∀ y ∈ t.fact.freeVars, P y) : ∀ y ∈ (s.addTemporary t).spelled, P y := by
  obtain ⟨hvars, htemporaries, hpath⟩ := forall_spelled.1 h
  refine forall_spelled.2 ⟨hvars, fun t' ht' => ?_, hpath⟩
  rcases List.mem_append.1 ht' with ht' | ht'
  · exact htemporaries t' ht'
  · rw [List.mem_singleton.1 ht']
    exact ⟨hname, hfact⟩

theorem forall_spelled_addCondition (h : ∀ x ∈ s.spelled, P x) {c : Term} (hc : ∀ y ∈ c.freeVars, P y) :
    ∀ y ∈ (s.addCondition c).spelled, P y := by
  obtain ⟨hvars, htemporaries, hpath⟩ := forall_spelled.1 h
  refine forall_spelled.2 ⟨hvars, htemporaries, fun c' hc' => ?_⟩
  rcases List.mem_append.1 hc' with hc' | hc'
  · exact hpath c' hc'
  · rw [List.mem_singleton.1 hc']
    exact hc

end Scope

namespace Liquid

open Canonical

/-! ### Names that may occur -/

variable {ds : Declarations} {made : Nat} {x : String}

/-- A name that recorded types spell, or one that is not that of a temporary still to come. -/
def Known (ds : Declarations) (made : Nat) (x : String) : Prop :=
  x ∈ ds.spelled ∨ ∀ i, x = temporaryName i → i < made

theorem Known.mono (h : Known ds made x) {made' : Nat} (hmade : made ≤ made') : Known ds made' x :=
  h.imp_right fun h i hi => Nat.lt_of_lt_of_le (h i hi) hmade

theorem known_of_plain (h : Plain x) : Known ds made x := by
  refine .inr fun i hi => ?_
  rw [hi] at h
  exact absurd h (not_plain_temporaryName i)

theorem known_boundName (n : Nat) : Known ds made (boundName n) :=
  .inr fun i hi => absurd hi (boundName_ne_temporaryName n i)

theorem known_temporaryName (made : Nat) : Known ds (made + 1) (temporaryName made) := by
  refine .inr fun i hi => ?_
  rw [← temporaryName_injective hi]
  exact Nat.lt_succ_self made

/-- The name of the next temporary may occur only where recorded types spell it. -/
theorem Known.spelled (h : Known ds made (temporaryName made)) : temporaryName made ∈ ds.spelled :=
  h.resolve_right fun h => Nat.lt_irrefl made (h made rfl)

theorem known_global {ty : RefinedType} (hty : (x, ty) ∈ ds.vars) {y : String} (hy : y ∈ ty.spelled) :
    Known ds made y :=
  .inl (List.mem_append_left _ (List.mem_flatMap.2 ⟨(x, ty), hty, hy⟩))

theorem known_signature {s : Signature} (hs : ds.functions.get? x = some s) {y : String} (hy : y ∈ s.spelled) :
    Known ds made y :=
  .inl (List.mem_append_right _ (List.mem_flatMap.2 ⟨(x, s), NameMap.mem_of_get? hs, hy⟩))

/-- A type of a signature mentions known names once known terms are put in for arguments. -/
theorem known_subst {f : String} {s : Signature} (hs : ds.functions.get? f = some s) {ty : RefinedType}
    (hty : ∀ y ∈ ty.spelled, y ∈ s.spelled) {terms : NameMap Term}
    (hterms : ∀ y t, terms.get? y = some t → ∀ z ∈ t.freeVars, Known ds made z)
    (hx : x ∈ (ty.subst terms).spelled) : Known ds made x := by
  rcases RefinedType.mem_spelled_subst hx with ⟨n, rfl⟩ | hx | ⟨y, t, ht, hx⟩
  · exact known_boundName n
  · exact known_signature hs (hty x hx)
  · exact hterms y t ht x hx

/-! ### The names of a check -/

/-- The context of a program, with a scope in which all names are known. -/
structure Sparing (ds : Declarations) (ctx : Context) (s : Scope) (made : Nat) : Prop where
  globals : ctx.globals = ds.vars
  functions : ctx.functions = ds.functions
  spelled : ∀ x ∈ s.spelled, Known ds made x

theorem forall_spelled_ofDeclared {types : NameMap RefinedType} {P : String → Prop}
    (h : ∀ x ty, (x, ty) ∈ types → P x ∧ ∀ y ∈ ty.spelled, P y) : ∀ y ∈ (Scope.ofDeclared types).spelled, P y := by
  refine Scope.forall_spelled.2 ⟨fun x w hx => ?_, fun t ht => (by cases ht), fun c hc => (by cases hc)⟩
  obtain ⟨⟨x, ty⟩, hty, heq⟩ := List.mem_map.1 hx
  cases heq
  exact h x ty hty

theorem forall_spelled_declareAll {f : RefinedType → RefinedType} {scope : Scope} {P : String → Prop}
    (hscope : ∀ x ∈ scope.spelled, P x) {pairs : List (String × RefinedType)}
    (hpairs : ∀ x ty, (x, ty) ∈ pairs → P x ∧ ∀ y ∈ (f ty).spelled, P y) :
    ∀ y ∈ (declareAll f scope pairs).spelled, P y := by
  induction pairs generalizing scope with
  | nil => exact hscope
  | cons pair pairs ih =>
    refine ih ?_ fun x ty hx => hpairs x ty (List.mem_cons_of_mem _ hx)
    obtain ⟨hvars, htemporaries, hpath⟩ := Scope.forall_spelled.1 hscope
    refine Scope.forall_spelled.2 ⟨fun y w hy => ?_, htemporaries, hpath⟩
    rcases NameMap.mem_insert hy with heq | hy
    · cases heq
      exact hpairs _ _ List.mem_cons_self
    · exact hvars y w hy

/-- A check of statements with plain names brings in no names of temporaries to come. -/
theorem hereditary_sparing {parts : List Stmt} (hnames : ∀ s ∈ parts, ∀ x ∈ s.introduced, Plain x)
    (hglobals : ∀ x ty, (x, ty) ∈ ds.vars → Plain x) :
    Hereditary parts (Sparing ds) fun _ made x => Known ds made x where
  plain hpart := hnames _ hpart _ (List.mem_singleton_self _)
  later h hmade := ⟨h.globals, h.functions, fun x hx => (h.spelled x hx).mono hmade⟩
  names h _ hmade := h.mono hmade
  var h hx := ((Scope.forall_spelled.1 h.spelled).1 _ _ (NameMap.mem_of_get? hx)).1
  temporary _ := known_temporaryName _
  retire h hx := by
    refine ⟨h.globals, h.functions, Scope.forall_spelled_retire (fun x hx => ?_) hx (known_temporaryName _)⟩
    exact (h.spelled x hx).mono (Nat.le_succ _)
  introduce h hpart _ ht _ base := by
    refine ⟨h.globals, h.functions, Scope.forall_spelled_introduce h.spelled ?_ ht known_boundName base⟩
    exact known_of_plain (hnames _ hpart _ (List.mem_singleton_self _))
  returned {ctx s made f sig terms} h hs hterms := by
    rw [h.functions] at hs
    refine ⟨h.globals, h.functions, Scope.forall_spelled_addTemporary
      (fun x hx => (h.spelled x hx).mono (Nat.le_succ _)) (known_temporaryName made) fun y hy => ?_⟩
    rcases RefinedType.mem_freeVars_predicateFor hy with hy | hy
    · refine (known_subst hs (fun z hz => List.mem_append_right _ hz) (fun z t hz => ?_) hy.spelled).mono
        (Nat.le_succ made)
      exact (hterms.found z t hz).2
    · rw [List.mem_singleton.1 hy]
      exact known_temporaryName made
  condition h hc := ⟨h.globals, h.functions, Scope.forall_spelled_addCondition h.spelled hc⟩
  body {ctx s made loc f params body sig} h hpart hs _ := by
    rw [h.functions] at hs
    refine ⟨h.globals, h.functions, ?_⟩
    have hparams : ∀ p ∈ params, Plain p := fun p hp => hnames _ hpart p (List.mem_cons_of_mem _ hp)
    rw [bodyScope_eq]
    refine forall_spelled_declareAll (forall_spelled_ofDeclared fun x ty hx => ?_) fun p ty hp => ?_
    · rw [h.globals] at hx
      exact ⟨known_of_plain (hglobals x ty hx), fun y hy => known_global hx hy⟩
    · obtain ⟨hp, hty⟩ := List.of_mem_zip hp
      refine ⟨known_of_plain (hparams p hp), fun y hy => ?_⟩
      refine known_subst hs (fun z hz => List.mem_append_left _ (List.mem_flatMap.2 ⟨ty, hty, hz⟩))
        (fun z t hz u hu => ?_) hy
      rw [get?_parameterTerms] at hz
      obtain ⟨p', hslot, rfl⟩ := Option.map_eq_some_iff.1 hz
      obtain ⟨i, hi, -⟩ := slot?_eq_some hslot
      rw [List.mem_singleton.1 hu]
      exact known_of_plain (hparams p' (List.mem_of_getElem? hi))

/-- Whenever the check of a program creates a temporary, its name occurs neither in the scope nor in the recorded
types, unless the recorded types of the program spell it. All temporaries that are numbered in the check, however
it ends, are created at such points. -/
theorem fresh_iff_not_spelled {text : String} {tree : Tree} (hparse : Tree.parse text = .ok tree)
    {table table' : FactTable}
    (hds : (recordAll ⟨[], []⟩ (tree.declarationsFor layerName)).run.run table = (.ok ds, table')) {σ : Type}
    (answer : Answerer σ) (solver : σ) :
    (∀ p, Reaches answer (.start ds.vars ds.functions solver tree.statements) p → p.task = .create →
      (temporaryName p.st.made ∉ p.st.scope.spelled ++ Declarations.spelled ⟨p.ctx.globals, p.ctx.functions⟩ ↔
        temporaryName p.st.made ∉ ds.spelled)) ∧
    ∀ i < ((checkAll answer ⟨ds.functions, ds.vars, none, false⟩ tree.statements).run.run
        (.start ds.vars solver)).2.made,
      ∃ p, Reaches answer (.start ds.vars ds.functions solver tree.statements) p ∧ p.task = .create ∧
        p.st.made = i := by
  have hnames : tree.Named Plain := fun loc x hx => plain_of_identLike (Tree.parse_named hparse loc x hx)
  have hrecorded := recorded_of_recordAll hds
  have hglobals : ∀ x ty, (x, ty) ∈ ds.vars → Plain x :=
    fun x ty hx => hrecorded.plain hnames (hrecorded.sorted.get? hx)
  have hstart : Sparing ds ⟨ds.functions, ds.vars, none, false⟩ (.ofDeclared ds.vars) 0 := by
    refine ⟨rfl, rfl, forall_spelled_ofDeclared fun x ty hx => ?_⟩
    exact ⟨known_of_plain (hglobals x ty hx), fun y hy => known_global hx hy⟩
  have hkeeps : Hereditary (Stmt.partsAll tree.statements) (Sparing ds) fun _ made x => Known ds made x :=
    hereditary_sparing (fun s hs x hx => Stmt.named_introduced hnames hs hx) hglobals
  refine ⟨fun p hp _ => ?_, fun i hi => creates_of_checkAll _ ⟨Nat.zero_le i, hi⟩⟩
  obtain ⟨-, hsparing⟩ := hkeeps.holds_of_reaches hp (fun _ => id) hstart
  rw [hsparing.globals, hsparing.functions, List.mem_append, not_or]
  exact ⟨And.right, fun h => ⟨fun hmem => h (hsparing.spelled _ hmem).spelled, h⟩⟩

/-- The call in `dependentCall` creates the first temporary, and its name occurs nowhere. -/
theorem dependentCall_fresh : ∃ p : Point Unit,
    Reaches (fun _ u => (.ok true, u))
      (.start dependentCallTypes.vars dependentCallTypes.functions () dependentCallTree.statements) p ∧
    p.task = .create ∧ p.st.made = 0 ∧ temporaryName 0 ∉ dependentCallTypes.spelled ∧
      temporaryName 0 ∉ p.st.scope.spelled := by
  obtain ⟨table, hds⟩ := recordAll_dependentCallTree
  have hfree : temporaryName 0 ∉ dependentCallTypes.spelled := by decide
  obtain ⟨hfresh, hcreated⟩ := fresh_iff_not_spelled parse_dependentCall hds (fun _ u => (.ok true, u)) ()
  obtain ⟨p, hp, htask, hmade⟩ := hcreated 0 (by cbv)
  refine ⟨p, hp, htask, hmade, hfree, fun hmem => ?_⟩
  have h := hfresh p hp htask
  rw [hmade] at h
  exact h.2 hfree (List.mem_append_left _ hmem)

/-- A function whose result type spells the name of the first temporary. -/
def forgedText : String :=
  "f : liquid : Int -> \x7br:Int | r > $t0\x7d\nz : liquid : \x7bv:Int | v > 100\x7d\nz = f(1)"

def forgedDeclarations : List Declaration :=
  [⟨⟨1, 1⟩, "f", "liquid", "Int -> \x7br:Int | r > $t0\x7d"⟩, ⟨⟨2, 1⟩, "z", "liquid", "\x7bv:Int | v > 100\x7d"⟩]

def forgedStatements : List Stmt :=
  forgedDeclarations.map .declare ++ [.assign ⟨3, 1⟩ "z" (.call ⟨3, 5⟩ "f" [.num ⟨3, 7⟩ 1])]

def forgedTypes : Declarations where
  vars := [("z", .refined .int "v" (.binary .gt (.var "v") (.int 100)))]
  functions := [("f", ⟨[⟨.int, none⟩], .refined .int "r" (.binary .gt (.var "r") (.var "$t0"))⟩)]

theorem parse_forgedText : (Tree.parse forgedText).toOption.map (fun tree =>
    (tree.declarationsFor layerName, tree.statements)) = some (forgedDeclarations, forgedStatements) := by
  cbv

theorem recordAll_forgedDeclarations : ∃ table,
    (recordAll ⟨[], []⟩ forgedDeclarations).run.run .empty = (.ok forgedTypes, table) := by
  have parse_f : LiquidType.parse "Int -> \x7br:Int | r > $t0\x7d" =
      .ok (.function ⟨[⟨.int, none⟩], .refined .int "r" (.binary .gt (.var "r") (.var "$t0"))⟩) := by cbv
  have parse_z : LiquidType.parse "\x7bv:Int | v > 100\x7d" =
      .ok (.value (.refined .int "v" (.binary .gt (.var "v") (.int 100)))) := by cbv
  refine ⟨_, Prod.ext ?_ rfl⟩
  simp only [forgedDeclarations, recordAll, parse_f, parse_z]
  rfl

/-- The state after the last line, where the first temporary is said to exceed itself. -/
def forgedState : State Unit where
  scope := ⟨[("z", ⟨.refined .int "v" (.binary .gt (.var "v") (.int 100)), true⟩)],
    [⟨"$t0", .int, .binary .gt (.var "$t0") (.var "$t0")⟩, ⟨"$t1", .int, .binary .gt (.var "$t1") (.int 100)⟩], []⟩
  assigned := ["z"]
  made := 2
  solver := ()

theorem checkAll_forgedStatements : (checkAll (fun q u => (Solver.settle ⟨1, 100⟩ q, u))
    ⟨forgedTypes.functions, forgedTypes.vars, none, false⟩ forgedStatements).run.run (.start forgedTypes.vars ()) =
      (.ok (), forgedState) := by
  cbv

/-- The result of the call becomes a temporary whose name the signature spells already. What is known of it is then
a contradiction, from which it follows that the result is a large number, and the program is accepted. -/
theorem forgedText_not_fresh : ∃ tree table, Tree.parse forgedText = .ok tree ∧
    (recordAll ⟨[], []⟩ (tree.declarationsFor layerName)).run.run .empty = (.ok forgedTypes, table) ∧
    (∃ p : Point Unit, Reaches (fun q u => (Solver.settle ⟨1, 100⟩ q, u))
        (.start forgedTypes.vars forgedTypes.functions () tree.statements) p ∧ p.task = .create ∧
      temporaryName p.st.made ∈ forgedTypes.spelled) ∧
    (checkProgram (fun q u => (Solver.settle ⟨1, 100⟩ q, u)) () forgedTypes.vars forgedTypes.functions
      tree.statements).1 = .ok () := by
  obtain ⟨tree, hparse, hread⟩ := Tree.exists_parse parse_forgedText
  obtain ⟨hdeclarations, hstatements⟩ := Prod.mk.inj hread
  obtain ⟨table, hds⟩ := recordAll_forgedDeclarations
  refine ⟨tree, table, hparse, hdeclarations ▸ hds, ?_, ?_⟩
  · have hmakes : Makes (checkAll (fun q u => (Solver.settle ⟨1, 100⟩ q, u))
        ⟨forgedTypes.functions, forgedTypes.vars, none, false⟩ forgedStatements) (.start forgedTypes.vars ()) 0 := by
      refine ⟨Nat.le_refl 0, ?_⟩
      rw [checkAll_forgedStatements]
      decide
    obtain ⟨p, hp, htask, hmade⟩ := creates_of_checkAll forgedStatements hmakes
    rw [hstatements]
    refine ⟨p, hp, htask, ?_⟩
    rw [hmade]
    decide
  · rw [hstatements]
    exact congrArg Prod.fst checkAll_forgedStatements

end Liquid

end LayerCheck
