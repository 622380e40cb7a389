import Mathlib
import LayerCheck.Program.Visit
import LayerCheck.Proofs.Refinement.Bodies
import LayerCheck.Proofs.Refinement.RoundTrip
import LayerCheck.Proofs.Solver.Rendering

/-! The numbers in the queries of a check. Literals come from expressions and from declared predicates; a minus sign
stands in front of a literal where an expression has it so, or where a declared predicate has it in front of a name
for which the literal of an expression is put in. Everything known in a scope keeps to that, and so do the queries
about it. -/
namespace LayerCheck

/-! ### Terms put into terms -/

namespace Term

variable {t : Term} {σ : String → Option Term} {L N : Int → Prop}

theorem mem_literals_subst {n : Int} (h : n ∈ (t.subst σ).literals) :
    n ∈ t.literals ∨ ∃ x ∈ t.freeVars, ∃ d, σ x = some d ∧ n ∈ d.literals := by
  induction t with
  | var x =>
    rw [subst] at h
    cases hx : σ x with
    | none =>
      rw [hx] at h
      cases h
    | some d =>
      rw [hx] at h
      exact .inr ⟨x, List.mem_singleton_self x, d, hx, h⟩
  | int m => exact .inl h
  | bool b => cases h
  | unary op t ih => exact ih h
  | binary op l r ihl ihr =>
    simp only [mem_freeVars_binary]
    rcases List.mem_append.1 h with h | h
    · rcases ihl h with h | ⟨x, hx, hd⟩
      · exact .inl (List.mem_append_left _ h)
      · exact .inr ⟨x, .inl hx, hd⟩
    · rcases ihr h with h | ⟨x, hx, hd⟩
      · exact .inl (List.mem_append_right _ h)
      · exact .inr ⟨x, .inr hx, hd⟩

theorem mem_negands_subst {u : Term} (h : u ∈ (t.subst σ).negands) :
    (∃ v ∈ t.negands, v.subst σ = u) ∨ ∃ x ∈ t.freeVars, ∃ d, σ x = some d ∧ u ∈ d.negands := by
  induction t with
  | var x =>
    rw [subst] at h
    cases hx : σ x with
    | none =>
      rw [hx] at h
      cases h
    | some d =>
      rw [hx] at h
      exact .inr ⟨x, List.mem_singleton_self x, d, hx, h⟩
  | int m => cases h
  | bool b => cases h
  | unary op t ih =>
    cases op with
    | not => exact ih h
    | neg =>
      rcases List.mem_cons.1 h with rfl | h
      · exact .inl ⟨t, List.mem_cons_self, rfl⟩
      · rcases ih h with ⟨v, hv, heq⟩ | h
        · exact .inl ⟨v, List.mem_cons_of_mem _ hv, heq⟩
        · exact .inr h
  | binary op l r ihl ihr =>
    simp only [mem_freeVars_binary]
    rcases List.mem_append.1 h with h | h
    · rcases ihl h with ⟨v, hv, heq⟩ | ⟨x, hx, hd⟩
      · exact .inl ⟨v, List.mem_append_left _ hv, heq⟩
      · exact .inr ⟨x, .inl hx, hd⟩
    · rcases ihr h with ⟨v, hv, heq⟩ | ⟨x, hx, hd⟩
      · exact .inl ⟨v, List.mem_append_right _ hv, heq⟩
      · exact .inr ⟨x, .inr hx, hd⟩

theorem mem_freeVars_of_negands {x : String} (h : var x ∈ t.negands) : x ∈ t.freeVars := by
  induction t with
  | var | int | bool => cases h
  | unary op t ih =>
    cases op with
    | not => exact ih h
    | neg =>
      rcases List.mem_cons.1 h with rfl | h
      · exact List.mem_singleton_self x
      · exact ih h
  | binary op l r ihl ihr =>
    rcases List.mem_append.1 h with h | h
    · exact mem_freeVars_binary.2 (.inl (ihl h))
    · exact mem_freeVars_binary.2 (.inr (ihr h))

/-- A literal is put in for a name only, or was there before. -/
theorem eq_of_subst_int {n : Int} (h : t.subst σ = int n) : t = int n ∨ ∃ x, t = var x ∧ σ x = some (int n) := by
  cases t with
  | var x =>
    rw [subst] at h
    cases hx : σ x with
    | none =>
      rw [hx] at h
      cases h
    | some d =>
      rw [hx] at h
      exact .inr ⟨x, rfl, hx.trans (congrArg some h)⟩
  | int m => exact .inl h
  | _ => cases h

theorem eq_var_of_subst {x : String} (h : t.subst σ = var x) : ∃ y, t = var y := by
  cases t with
  | var y => exact ⟨y, rfl⟩
  | _ => cases h

theorem Legible.subst (h : t.Legible L N) (hσ : ∀ x ∈ t.freeVars, ∀ d, σ x = some d → d.Legible L N)
    (hN : ∀ x n, var x ∈ t.negands → σ x = some (int n) → N n) : (t.subst σ).Legible L N := by
  refine ⟨fun y hy => ?_, fun n hn => ?_, fun n hn => ?_⟩
  · obtain ⟨x, hx, hy⟩ := mem_freeVars_subst hy
    cases hd : σ x with
    | none =>
      rw [hd] at hy
      rw [List.mem_singleton.1 hy]
      exact h.spelled x hx
    | some d =>
      rw [hd] at hy
      exact (hσ x hx d hd).spelled y hy
  · rcases mem_literals_subst hn with hn | ⟨x, hx, d, hd, hn⟩
    · exact h.literals n hn
    · exact (hσ x hx d hd).literals n hn
  · rcases mem_negands_subst hn with ⟨v, hv, heq⟩ | ⟨x, hx, d, hd, hn⟩
    · rcases eq_of_subst_int heq with rfl | ⟨x, rfl, hx⟩
      · exact h.negands n hv
      · exact hN x n hv hx
    · exact (hσ x hx d hd).negands n hn

theorem legible_bool (b : Bool) : (bool b).Legible L N :=
  ⟨fun _ hy => (by cases hy), fun _ hn => (by cases hn), fun _ hn => (by cases hn)⟩

theorem legible_var {x : String} (hx : Token.isName x = true) : (var x).Legible L N :=
  ⟨fun y hy => List.mem_singleton.1 hy ▸ hx, fun _ hn => (by cases hn), fun _ hn => (by cases hn)⟩

theorem Legible.instantiate (h : t.Legible L N) {x : String} {d : Term} (hd : d.Legible L N)
    (hN : ∀ n, d = int n → var x ∈ t.negands → N n) : (t.subst (single x d)).Legible L N := by
  refine h.subst (fun y _ d' hd' => ?_) fun y n hy hn => ?_
  · rw [single] at hd'
    split at hd'
    next =>
      cases hd'
      exact hd
    next => cases hd'
  · rw [single] at hn
    split at hn
    next heq => exact hN n (Option.some.inj hn) (heq ▸ hy)
    next => cases hn

theorem Legible.rename (h : t.Legible L N) (old : String) {new : String} (hnew : Token.isName new = true) :
    (t.rename old new).Legible L N :=
  h.instantiate (legible_var hnew) fun _ hn => (by cases hn)

end Term

/-! ### Generated names -/

theorem isName_temporaryName (n : Nat) : Token.isName (Liquid.temporaryName n) = true :=
  Token.isName_numbered [] n (Liquid.toList_temporaryName n) (by decide) rfl

theorem isName_boundName (n : Nat) : Token.isName (boundName n) = true := by
  match n with
  | 0 | 1 => decide
  | n + 2 => exact Token.isName_numbered [] (n + 1) (toList_boundName_add_two n) (by decide) rfl

/-! ### The numbers of a program -/

/-- The predicates of a declared type. -/
def LiquidType.predicates : LiquidType → List Term
  | value ty => ty.refinement.toList.map Refinement.predicate
  | function s => (s.ret :: s.args).flatMap fun ty => ty.refinement.toList.map Refinement.predicate

namespace Tree

variable (tree : Tree)

/-- An expression has a number as a literal. -/
def Writes (n : Int) : Prop := ∃ loc, Expr.num loc n ∈ Stmt.stepsAll tree.statements

/-- A predicate of a declared refined type. -/
def Predicate (p : Term) : Prop :=
  ∃ d ∈ tree.declarationsFor Liquid.layerName, ∃ ty, LiquidType.parse d.text = .ok ty ∧ p ∈ ty.predicates

/-- A declared predicate has a minus sign in front of a name. -/
def NegatesName : Prop := ∃ p x, tree.Predicate p ∧ .var x ∈ p.negands

/-- A number is a literal in an expression or in a declared predicate. -/
def Literal (n : Int) : Prop := tree.Writes n ∨ ∃ p, tree.Predicate p ∧ n ∈ p.literals

/-- A literal stands behind a minus sign in an expression, or comes to stand behind one in a declared predicate. -/
def Negates (n : Int) : Prop :=
  (∃ loc loc', Expr.unary loc .neg (.num loc' n) ∈ Stmt.stepsAll tree.statements) ∨ tree.NegatesName ∧ tree.Writes n

end Tree

/-- A term as it may stand in a query about a program. -/
abbrev Term.Of (tree : Tree) (t : Term) : Prop := t.Legible tree.Literal tree.Negates

/-- A term for the value of an expression. -/
structure Term.ValueOf (tree : Tree) (t : Term) : Prop where
  legible : t.Of tree
  written : ∀ n ∈ t.literals, tree.Writes n

/-- Terms of expressions for names other than bound ones. -/
structure ArgumentsOf (tree : Tree) (m : NameMap Term) : Prop where
  values : ∀ x t, m.get? x = some t → t.ValueOf tree
  unbound : ∀ n, m.get? (boundName n) = none

namespace RefinedType

/-- A type that is known of a value. -/
def Of (tree : Tree) (ty : RefinedType) : Prop :=
  ∀ r, ty.refinement = some r → Token.isName r.name = true ∧ r.predicate.Of tree

/-- A type that values are checked against. -/
def ExpectedIn (tree : Tree) (ty : RefinedType) : Prop :=
  ty.Of tree ∧ ∀ r, ty.refinement = some r → .var r.name ∈ r.predicate.negands → tree.NegatesName

/-- A type that is declared. -/
def DeclaredIn (tree : Tree) (ty : RefinedType) : Prop :=
  ty.Of tree ∧ ∀ r, ty.refinement = some r → ∀ x, .var x ∈ r.predicate.negands → tree.NegatesName

variable {tree : Tree} {ty : RefinedType}

theorem DeclaredIn.expected (h : ty.DeclaredIn tree) : ty.ExpectedIn tree := ⟨h.1, fun r hr => h.2 r hr r.name⟩

theorem Of.predicateFor_var (h : ty.Of tree) {x : String} (hx : Token.isName x = true) :
    (ty.predicateFor (.var x)).Of tree := by
  rw [predicateFor]
  split
  next r hr => exact (h r hr).2.instantiate (Term.legible_var hx) fun _ hn => (by cases hn)
  next => exact Term.legible_bool true

theorem ExpectedIn.predicateFor (h : ty.ExpectedIn tree) {t : Term} (ht : t.ValueOf tree) :
    (ty.predicateFor t).Of tree := by
  rw [RefinedType.predicateFor]
  split
  next r hr =>
    refine (h.1 r hr).2.instantiate ht.legible fun n hn hmem => .inr ⟨h.2 r hr hmem, ht.written n ?_⟩
    rw [hn]
    exact List.mem_singleton_self n
  next => exact Term.legible_bool true

/-- The values equal to a term: no minus sign stands in front of the bound name. -/
theorem of_exactly {t : Term} (ht : t.Of tree) (base : BaseType) :
    (exactly base t).Of tree ∧ ((exactly base t).predicateFor t).Of tree := by
  have hname : Token.isName (if t.freeVars.contains (boundName 0) then boundName 1 else boundName 0) = true := by
    split
    · exact isName_boundName 1
    · exact isName_boundName 0
  have hpred : (Term.equal (.var _) t).Of tree := Term.legible_binary.2 ⟨Term.legible_var hname, ht⟩
  refine ⟨fun r hr => ?_, hpred.instantiate ht fun n hn hmem => ?_⟩
  · cases hr
    exact ⟨hname, hpred⟩
  · rw [hn] at hmem
    cases hmem

/-- A name behind a minus sign is there after a substitution from the declared predicate or from a term put in, and no
term put in mentions the bound name. -/
theorem DeclaredIn.subst (h : ty.DeclaredIn tree) {m : NameMap Term} (hm : ArgumentsOf tree m) :
    (ty.subst m).ExpectedIn tree := by
  cases hr : ty.refinement with
  | none =>
    rw [subst_of_none hr]
    exact h.expected
  | some r =>
    obtain ⟨hname, hpred⟩ := h.1 r hr
    have hnegands := h.2 r hr
    obtain ⟨name, heq, hfree, hfresh⟩ := exists_subst_eq hm.unbound hr
    have hspelled : Token.isName name = true := by
      rcases hfresh with rfl | ⟨-, -, n, rfl⟩
      · exact hname
      · exact isName_boundName n
    rw [heq]
    constructor
    · intro r' hr'
      cases hr'
      refine ⟨hspelled, hpred.subst (fun x _ t ht => ?_) fun x n hx ht => ?_⟩
      · rw [Refinement.filling] at ht
        split at ht
        next =>
          cases ht
          exact Term.legible_var hspelled
        next => exact (hm.values x t ht).legible
      · rw [Refinement.filling] at ht
        split at ht
        next => cases ht
        next => exact .inr ⟨hnegands x hx, (hm.values x _ ht).written n (List.mem_singleton_self n)⟩
    · intro r' hr' hmem
      cases hr'
      rcases Term.mem_negands_subst hmem with ⟨v, hv, heq⟩ | ⟨x, hx, t, ht, hmem⟩
      · obtain ⟨y, rfl⟩ := Term.eq_var_of_subst heq
        exact hnegands y hv
      · rw [Refinement.filling] at ht
        split at ht
        next =>
          cases ht
          cases hmem
        next hne => exact absurd ⟨x, t, hx, hne, ht, Term.mem_freeVars_of_negands hmem⟩ hfree

end RefinedType

/-! ### Declared types -/

namespace RefinedType

variable {tree : Tree} {ty ty' : RefinedType}

theorem DeclaredIn.of_predicate (hread : ty.Readable)
    (hp : ∀ r, ty.refinement = some r → tree.Predicate r.predicate) : ty.DeclaredIn tree := by
  constructor
  · intro r hr
    obtain ⟨hname, hpred⟩ := hread r hr
    exact ⟨hname, hpred.legible fun n hn => .inr ⟨_, hp r hr, hn⟩⟩
  · exact fun r hr x hx => ⟨_, x, hp r hr, hx⟩

theorem DeclaredIn.of_repositioned (hread : ty.Readable)
    (hp : ∀ r, ty.refinement = some r → tree.Predicate r.predicate) (h : Canonical.Repositioned ty ty') :
    ty'.DeclaredIn tree := by
  have hread' := Canonical.readable_of_repositioned hread h
  constructor
  · intro r' hr'
    obtain ⟨r, hr, -, σ, hσ, hpred⟩ := h r' hr'
    obtain ⟨hname', hpred'⟩ := hread' r' hr'
    refine ⟨hname', hpred'.legible fun n hn => ?_⟩
    rw [hpred] at hn
    rcases Term.mem_literals_subst hn with hn | ⟨x, -, d, hd, hn⟩
    · exact .inr ⟨_, hp r hr, hn⟩
    · obtain ⟨i, rfl⟩ := hσ x d hd
      cases hn
  · intro r' hr' x hx
    obtain ⟨r, hr, -, σ, hσ, hpred⟩ := h r' hr'
    rw [hpred] at hx
    rcases Term.mem_negands_subst hx with ⟨v, hv, heq⟩ | ⟨y, -, d, hd, hx⟩
    · obtain ⟨y, rfl⟩ := Term.eq_var_of_subst heq
      exact ⟨_, y, hp r hr, hv⟩
    · obtain ⟨i, rfl⟩ := hσ y d hd
      cases hx

end RefinedType

/-! ### Scopes -/

namespace Scope

variable {tree : Tree} {s : Scope}

/-- Everything known in a scope keeps to the numbers of a program. -/
structure Of (tree : Tree) (s : Scope) : Prop where
  vars : ∀ p ∈ s.vars, Token.isName p.1 = true ∧ p.2.ty.Of tree ∧ (p.2.declared = true → p.2.ty.ExpectedIn tree)
  temporaries : ∀ t ∈ s.temporaries, Token.isName t.name = true ∧ t.fact.Of tree
  path : ∀ c ∈ s.path, c.Of tree

theorem Of.assumption (h : s.Of tree) {premise : Term} (hpremise : premise.Of tree) {a : Assumption}
    (ha : a ∈ s.assumptions premise) : a.fact.Of tree := by
  simp only [assumptions, List.mem_append, List.mem_map, List.mem_singleton] at ha
  rcases ha with ((⟨p, hp, rfl⟩ | ⟨t, ht, rfl⟩) | ⟨c, hc, rfl⟩) | rfl
  · obtain ⟨hname, hty, -⟩ := h.vars p hp
    exact hty.predicateFor_var hname
  · exact (h.temporaries t ht).2
  · exact h.path c hc
  · exact hpremise

theorem Of.isName_of_baseOf? (h : s.Of tree) {x : String} {base : BaseType} (hx : s.baseOf? x = some base) :
    Token.isName x = true := by
  unfold baseOf? at hx
  split at hx
  next v hv => exact (h.vars _ (NameMap.mem_of_get? hv)).1
  next =>
    obtain ⟨t, ht, -⟩ := Option.map_eq_some_iff.1 hx
    have hname : t.name = x := by simpa using List.find?_some ht
    rw [← hname]
    exact (h.temporaries t (List.mem_of_find?_eq_some ht)).1

/-- A query about a scope keeps to the numbers of the program. -/
theorem Of.query (h : s.Of tree) {premise conclusion : Term} (hpremise : premise.Of tree)
    (hconclusion : conclusion.Of tree) {q : Query} (hq : s.query premise conclusion = .ok q) :
    q.Legible tree.Literal tree.Negates := by
  obtain ⟨hbindings, hpremises, heq⟩ := query_eq_ok hq
  refine ⟨fun b hb => ?_, fun p hp => ?_, heq ▸ hconclusion⟩
  · have hname := h.isName_of_baseOf? (baseOf?_of_mem_bindings hbindings hb)
    exact (Bool.and_eq_true_iff.1 hname).1
  · obtain ⟨a, ha, -, rfl⟩ := hpremises p hp
    exact h.assumption hpremise ha

theorem of_ofDeclared {types : NameMap RefinedType}
    (h : ∀ p ∈ types, Token.isName p.1 = true ∧ p.2.ExpectedIn tree) : (ofDeclared types).Of tree := by
  refine ⟨fun p hp => ?_, fun t ht => (by cases ht), fun c hc => (by cases hc)⟩
  obtain ⟨⟨x, ty⟩, hmem, rfl⟩ := List.mem_map.1 hp
  obtain ⟨hname, hty⟩ := h _ hmem
  exact ⟨hname, hty.1, fun _ => hty⟩

theorem Of.insert (h : s.Of tree) {x : String} {v : VariableType} (hx : Token.isName x = true) (hv : v.ty.Of tree)
    (hdeclared : v.declared = true → v.ty.ExpectedIn tree) : Of tree { s with vars := s.vars.insert x v } := by
  refine ⟨fun p hp => ?_, h.temporaries, h.path⟩
  rcases NameMap.mem_insert hp with rfl | hp
  · exact ⟨hx, hv, hdeclared⟩
  · exact h.vars p hp

theorem Of.addCondition (h : s.Of tree) {c : Term} (hc : c.Of tree) : (s.addCondition c).Of tree := by
  refine ⟨h.vars, h.temporaries, fun c' hc' => ?_⟩
  rcases List.mem_append.1 hc' with hc' | hc'
  · exact h.path c' hc'
  · rwa [List.mem_singleton.1 hc']

theorem Of.addTemporary (h : s.Of tree) {t : Temporary} (hname : Token.isName t.name = true)
    (hfact : t.fact.Of tree) : (s.addTemporary t).Of tree := by
  refine ⟨h.vars, fun t' ht' => ?_, h.path⟩
  rcases List.mem_append.1 ht' with ht' | ht'
  · exact h.temporaries t' ht'
  · rw [List.mem_singleton.1 ht']
    exact ⟨hname, hfact⟩

/-- Only types that are not declared are rewritten, so a type that values are checked against stays. -/
theorem of_redirect {v : VariableType} (hv : v.ty.Of tree) (hdeclared : v.declared = true → v.ty.ExpectedIn tree)
    (old : String) {new : String} (hnew : Token.isName new = true) :
    (VariableType.redirect old new v).ty.Of tree ∧
      ((VariableType.redirect old new v).declared = true → (VariableType.redirect old new v).ty.ExpectedIn tree) := by
  unfold VariableType.redirect
  split
  next r _ hr =>
    split
    next => exact ⟨hv, hdeclared⟩
    next =>
      refine ⟨fun r' hr' => ?_, fun hd => (by cases hd)⟩
      cases hr'
      exact ⟨(hv r hr).1, (hv r hr).2.rename old hnew⟩
  next => exact ⟨hv, hdeclared⟩

theorem Of.retire (h : s.Of tree) {x temporary : String} {v : VariableType} (hv : v.ty.Of tree)
    (hname : Token.isName temporary = true) : (s.retire x v temporary).Of tree := by
  refine ⟨fun p hp => ?_, fun t ht => ?_, fun c hc => ?_⟩
  · obtain ⟨⟨y, w⟩, hmem, rfl⟩ := List.mem_map.1 hp
    obtain ⟨hy, hty, hdeclared⟩ := h.vars _ hmem
    exact ⟨hy, of_redirect hty hdeclared x hname⟩
  · rcases List.mem_append.1 ht with ht | ht
    · obtain ⟨t', hmem, rfl⟩ := List.mem_map.1 ht
      exact ⟨(h.temporaries t' hmem).1, (h.temporaries t' hmem).2.rename x hname⟩
    · rw [List.mem_singleton.1 ht]
      exact ⟨hname, hv.predicateFor_var hname⟩
  · obtain ⟨c', hmem, rfl⟩ := List.mem_map.1 hc
    exact (h.path c' hmem).rename x hname

end Scope

/-! ### Contexts and meanings -/

namespace Liquid

variable {tree : Tree}

/-- The types around a block of statements keep to the numbers of a program. -/
structure Context.Of (tree : Tree) (ctx : Context) : Prop where
  functions : ∀ f s, ctx.functions.get? f = some s → (∀ arg ∈ s.args, arg.DeclaredIn tree) ∧ s.ret.DeclaredIn tree
  globals : ∀ p ∈ ctx.globals, Token.isName p.1 = true ∧ p.2.ExpectedIn tree
  result : ∀ ty, ctx.result = some ty → ty.ExpectedIn tree

/-- The meaning of an expression: its term is a literal only where the expression is one. -/
structure Meaning.Of (tree : Tree) (e : Expr) (m : Meaning) : Prop where
  term : m.term.ValueOf tree
  known : (m.ty.predicateFor m.term).Of tree
  literal : ∀ n, m.term = .int n → ∃ loc, e = .num loc n

theorem meaning_exact_of {e : Expr} {t : Term} (ht : t.ValueOf tree) (base : BaseType)
    (hliteral : ∀ n, t = .int n → ∃ loc, e = .num loc n) : (Meaning.exact base t).Of tree e :=
  ⟨ht, (RefinedType.of_exactly ht.legible base).2, hliteral⟩

theorem valueOf_var {x : String} (hx : Token.isName x = true) : (Term.var x).ValueOf tree :=
  ⟨Term.legible_var hx, fun _ hn => (by cases hn)⟩

theorem signature_of_signatureFor {ctx : Context} (h : ctx.Of tree) {f : String} {count : Nat} {loc : Location}
    {s : Signature} (hs : signatureFor ctx f count loc = .ok s) :
    (∀ arg ∈ s.args, arg.DeclaredIn tree) ∧ s.ret.DeclaredIn tree := by
  unfold signatureFor at hs
  split at hs
  next => cases hs
  next hf =>
    split at hs
    next => cases hs
    next =>
      cases hs
      exact h.functions f _ hf

theorem argumentsOf_parameterTerms {params : List String} (h : ∀ x ∈ params, Token.isName x = true) :
    ArgumentsOf tree (parameterTerms params) := by
  constructor
  · intro x t hx
    rw [get?_parameterTerms] at hx
    obtain ⟨p, hp, rfl⟩ := Option.map_eq_some_iff.1 hx
    obtain ⟨i, hi, -⟩ := Canonical.slot?_eq_some hp
    exact valueOf_var (h p (List.mem_of_getElem? hi))
  · intro n
    rw [get?_parameterTerms, Option.map_eq_none_iff, Option.eq_none_iff_forall_ne_some]
    intro p hp
    obtain ⟨i, -, hi⟩ := Canonical.slot?_eq_some hp
    exact boundName_ne_nameAt n _ hi

theorem of_declareAll {f : RefinedType → RefinedType} {scope : Scope} (hscope : scope.Of tree)
    {pairs : List (String × RefinedType)}
    (h : ∀ p ∈ pairs, Token.isName p.1 = true ∧ (f p.2).ExpectedIn tree) : (declareAll f scope pairs).Of tree := by
  induction pairs generalizing scope with
  | nil => exact hscope
  | cons p pairs ih =>
    obtain ⟨hname, hty⟩ := h p List.mem_cons_self
    exact ih (hscope.insert hname hty.1 fun _ => hty) fun p' hp' => h p' (List.mem_cons_of_mem _ hp')

theorem of_bodyScope {ctx : Context} (hctx : ctx.Of tree) {params : List String}
    (hparams : ∀ x ∈ params, Token.isName x = true) {s : Signature} (hs : ∀ arg ∈ s.args, arg.DeclaredIn tree) :
    (bodyScope ctx params s).Of tree := by
  refine of_declareAll (Scope.of_ofDeclared hctx.globals) fun p hp => ?_
  obtain ⟨hparam, harg⟩ := List.of_mem_zip hp
  exact ⟨hparams _ hparam, (hs _ harg).subst (argumentsOf_parameterTerms hparams)⟩

end Liquid

end LayerCheck
