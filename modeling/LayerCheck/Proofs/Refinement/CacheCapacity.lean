import Mathlib
import LayerCheck.Layer.Builtin
import LayerCheck.Proofs.Refinement.Literals
import LayerCheck.Proofs.Solver.Recency
import LayerCheck.Proofs.Solver.Spelling

/-! The capacity of the solver's cache does not show in the outcome of a check. Two checks of a program go side by
side through states that differ in the memory of the solver alone. As long as every negation of a large number has
one spelling in the program and its declared types, what is remembered of a query by its text is the answer to the
query itself, so both checks get the same answers. With two spellings the outcome may depend on the capacity. -/
namespace LayerCheck

namespace Liquid

variable {tree : Tree} {solver : Solver} {α β : Type}

/-! ### Checks side by side -/

/-- On the queries about a program, the answers of a solver depend on the text alone. -/
def AnswersByText (tree : Tree) (solver : Solver) : Prop :=
  Cache.ByText solver.settle (Query.Legible tree.Literal tree.Negates)

/-- Every remembered answer is the answer to a query about a program. -/
def Remembers (tree : Tree) (solver : Solver) (c : Cache) : Prop :=
  Cache.Faithful solver.settle (Query.Legible tree.Literal tree.Negates) c.entries

/-- States that differ in the memory of the solver alone. -/
structure Matched (tree : Tree) (solver : Solver) (st st' : State Cache) : Prop where
  scope : st'.scope = st.scope
  assigned : st'.assigned = st.assigned
  made : st'.made = st.made
  known : st.scope.Of tree
  left : Remembers tree solver st.solver
  right : Remembers tree solver st'.solver

/-- Outcomes that are one fault, or related results. -/
inductive SameOutcome (R : α → α → Prop) : Except Fault α → Except Fault α → Prop
  | error (e : Fault) : SameOutcome R (.error e) (.error e)
  | ok {a a' : α} (h : R a a') : SameOutcome R (.ok a) (.ok a')

theorem SameOutcome.eq {R : α → α → Prop} {o o' : Except Fault α} (h : SameOutcome R o o')
    (hR : ∀ a a', R a a' → a' = a) : o' = o := by
  cases h with
  | error e => rfl
  | ok h => rw [hR _ _ h]

/-- From matched states two checks come to the same outcome and to matched states. -/
def Agree (tree : Tree) (solver : Solver) (R : α → α → Prop) (c c' : Check Cache α) : Prop :=
  ∀ st st', Matched tree solver st st' → SameOutcome R (c.run.run st).1 (c'.run.run st').1 ∧
    Matched tree solver (c.run.run st).2 (c'.run.run st').2

/-- A check that agrees with itself, with results of some kind. -/
def Steady (tree : Tree) (solver : Solver) (Q : α → Prop) (c : Check Cache α) : Prop :=
  Agree tree solver (fun a a' => a' = a ∧ Q a) c c

theorem Agree.bind {R : α → α → Prop} {T : β → β → Prop} {c c' : Check Cache α} {f f' : α → Check Cache β}
    (hc : Agree tree solver R c c') (hf : ∀ a a', R a a' → Agree tree solver T (f a) (f' a')) :
    Agree tree solver T (c >>= f) (c' >>= f') := by
  intro st st' h
  have hrun : ∀ (c : Check Cache α) (f : α → Check Cache β) (st : State Cache),
      (c >>= f).run.run st = ExceptT.bindCont f (c.run.run st).1 (c.run.run st).2 := fun _ _ _ => rfl
  obtain ⟨houtcome, hst⟩ := hc st st' h
  rw [hrun, hrun]
  generalize (c.run.run st).1 = o, (c'.run.run st').1 = o' at houtcome
  cases houtcome with
  | error e => exact ⟨.error e, hst⟩
  | ok hR => exact hf _ _ hR _ _ hst

variable {Q : α → Prop} {T : β → Prop}

theorem Steady.bind {c : Check Cache α} {f : α → Check Cache β} (hc : Steady tree solver Q c)
    (hf : ∀ a, Q a → Steady tree solver T (f a)) : Steady tree solver T (c >>= f) := by
  refine Agree.bind hc ?_
  rintro a _ ⟨rfl, hQ⟩
  exact hf _ hQ

theorem steady_pure {a : α} (h : Q a) : Steady tree solver Q (pure a) := fun _ _ hst => ⟨.ok ⟨rfl, h⟩, hst⟩

theorem steady_throw (e : Fault) : Steady tree solver Q (throw e) := fun _ _ hst => ⟨.error e, hst⟩

theorem steady_throw_bind (e : Fault) (f : α → Check Cache β) : Steady tree solver T (throw e >>= f) :=
  (steady_throw (Q := fun _ => False) e).bind fun _ h => h.elim

theorem steady_ofExcept {r : Except Fault α} (h : ∀ a, r = .ok a → Q a) : Steady tree solver Q (ofExcept r) := by
  intro st st' hst
  refine ⟨?_, hst⟩
  cases r with
  | error e => exact .error e
  | ok a => exact .ok ⟨rfl, h a rfl⟩

theorem agree_get : Agree tree solver (Matched tree solver) get get := fun _ _ hst => ⟨.ok hst, hst⟩

theorem agree_set {st st' : State Cache} (h : Matched tree solver st st') :
    Agree tree solver (fun _ _ => True) (set st) (set st') := fun _ _ _ => ⟨.ok trivial, h⟩

theorem steady_modify {f : State Cache → State Cache}
    (h : ∀ st st', Matched tree solver st st' → Matched tree solver (f st) (f st')) :
    Steady tree solver (fun _ => True) (modify f) := fun st st' hst => ⟨.ok ⟨rfl, trivial⟩, h st st' hst⟩

theorem steady_getScope : Steady tree solver (Scope.Of tree) getScope :=
  fun _ _ hst => ⟨.ok ⟨hst.scope, hst.known⟩, hst⟩

theorem steady_setScope {s : Scope} (h : s.Of tree) : Steady tree solver (fun _ => True) (setScope s) :=
  steady_modify fun _ _ hst => { hst with scope := rfl, known := h }

theorem steady_modifyScope {f : Scope → Scope} (h : ∀ s, s.Of tree → (f s).Of tree) :
    Steady tree solver (fun _ => True) (modifyScope f) :=
  steady_modify fun _ _ hst => { hst with scope := congrArg f hst.scope, known := h _ hst.known }

theorem steady_markAssigned (x : String) : Steady tree solver (fun _ => True) (markAssigned x) :=
  steady_modify fun _ _ hst => { hst with assigned := congrArg (NameSet.insert x) hst.assigned }

theorem steady_freshTemporary : Steady tree solver (Token.isName · = true) freshTemporary := by
  refine fun st st' hst => ⟨.ok ⟨congrArg temporaryName hst.made, isName_temporaryName _⟩, ?_⟩
  exact { hst with made := congrArg (· + 1) hst.made }

theorem steady_retire (x : String) :
    Steady tree solver (fun r => ∀ y, r = some y → Token.isName y = true) (retire x) := by
  unfold retire
  refine steady_getScope.bind fun s hs => ?_
  split
  next => exact steady_pure fun y hy => (by cases hy)
  next v hv =>
    refine steady_freshTemporary.bind fun temporary hname => ?_
    have hretire : ∀ s' : Scope, s'.Of tree → (s'.retire x v temporary).Of tree :=
      fun s' hs' => hs'.retire (hs.vars _ (NameMap.mem_of_get? hv)).2.1 hname
    refine (steady_modifyScope hretire).bind fun _ _ => steady_pure ?_
    rintro y ⟨⟩
    exact hname

theorem steady_retireAll (xs : List String) : Steady tree solver (fun _ => True) (retireAll xs) := by
  induction xs with
  | nil => exact steady_pure trivial
  | cons x xs ih => exact (steady_retire x).bind fun _ _ => ih

/-! ### Queries -/

theorem Remembers.ask (hs : AnswersByText tree solver) {c : Cache} (hc : Remembers tree solver c) {q : Query}
    (hq : q.Legible tree.Literal tree.Negates) : Remembers tree solver (Cache.ask solver.settle q c).2 := by
  rw [Remembers, (Cache.ask_eq hs hc hq).2.entries]
  split
  next hanswer => exact (hc.touch hq hanswer).take _
  next => exact hc

/-- Both memories give the answer of the solver itself. -/
theorem steady_ask (hs : AnswersByText tree solver) {q : Query} (hq : q.Legible tree.Literal tree.Negates) :
    Steady tree solver (fun _ => True) (ask (Cache.ask solver.settle) q) := by
  intro st st' hst
  have hleft := (Cache.ask_eq hs hst.left hq).1
  have hright := (Cache.ask_eq hs hst.right hq).1
  refine ⟨.ok ⟨hright.trans hleft.symm, trivial⟩, ?_⟩
  exact { hst with left := hst.left.ask hs hq, right := hst.right.ask hs hq }

theorem steady_checkSubtype (hs : AnswersByText tree solver) {e : Expr} {actual : Meaning}
    (hactual : actual.Of tree e) {expected : RefinedType} (hexpected : expected.ExpectedIn tree) (text : String)
    (loc : Location) :
    Steady tree solver (fun _ => True) (checkSubtype (Cache.ask solver.settle) actual expected text loc) := by
  unfold checkSubtype
  dsimp only
  split
  next => exact steady_throw _
  next =>
    split
    next =>
      refine steady_getScope.bind fun scope hscope => ?_
      split
      next => exact steady_throw _
      next q hq =>
        have hlegible := hscope.query hactual.known (hexpected.predicateFor hactual.term) hq
        refine (steady_ask hs hlegible).bind fun r _ => ?_
        split
        next => exact steady_throw _
        next => exact steady_pure trivial
        next => exact steady_throw _
    next => exact steady_pure trivial

/-! ### Expressions -/

theorem steady_signatureFor {ctx : Context} (hctx : ctx.Of tree) (f : String) (arity : Nat) (loc : Location) :
    Steady tree solver (fun s : Signature => (∀ arg ∈ s.args, arg.DeclaredIn tree) ∧ s.ret.DeclaredIn tree)
      (ofExcept (signatureFor ctx f arity loc)) :=
  steady_ofExcept fun _ hsig => signature_of_signatureFor hctx hsig

mutual

theorem steady_meaning (hs : AnswersByText tree solver) {ctx : Context} (hctx : ctx.Of tree) (e : Expr)
    (he : e.steps ⊆ Stmt.stepsAll tree.statements) :
    Steady tree solver (Meaning.Of tree e) (meaning (Cache.ask solver.settle) ctx e) := by
  cases e with
  | num loc n =>
    have hwrites : tree.Writes n := ⟨loc, he (List.mem_singleton_self _)⟩
    have hvalue : (Term.int n).ValueOf tree := by
      refine ⟨⟨fun _ hx => (by cases hx), fun m hm => ?_, fun _ hm => (by cases hm)⟩, fun m hm => ?_⟩
      · rw [List.mem_singleton.1 hm]
        exact .inl hwrites
      · rwa [List.mem_singleton.1 hm]
    refine steady_pure (meaning_exact_of hvalue .int ?_)
    rintro m ⟨⟩
    exact ⟨loc, rfl⟩
  | bool loc b =>
    have hvalue : (Term.bool b).ValueOf tree := ⟨Term.legible_bool b, fun _ hn => (by cases hn)⟩
    exact steady_pure (meaning_exact_of hvalue .bool fun _ hn => (by cases hn))
  | ident loc x =>
    unfold meaning
    refine steady_getScope.bind fun scope hscope => ?_
    split
    next v hv =>
      obtain ⟨hname, hty, -⟩ := hscope.vars _ (NameMap.mem_of_get? hv)
      exact steady_pure ⟨valueOf_var hname, hty.predicateFor_var hname, fun _ hn => (by cases hn)⟩
    next => exact steady_throw _
  | call loc callee args =>
    unfold meaning
    refine (steady_signatureFor hctx _ _ loc).bind fun s hsig => ?_
    have hargs : Expr.stepsAll args ⊆ Stmt.stepsAll tree.statements :=
      fun e' he' => he (List.mem_cons_of_mem _ he')
    have hnone : ArgumentsOf tree [] := ⟨fun _ _ hx => (by cases hx), fun _ => rfl⟩
    refine (steady_checkArgs hs hctx args hargs 0 hnone hsig.1).bind fun arguments harguments => ?_
    refine steady_freshTemporary.bind fun temporary hname => ?_
    have hfact := (hsig.2.subst harguments).1.predicateFor_var hname
    have hadd : ∀ scope : Scope, scope.Of tree → (scope.addTemporary ⟨temporary, (s.ret.subst arguments).base,
        (s.ret.subst arguments).predicateFor (.var temporary)⟩).Of tree :=
      fun scope hscope => hscope.addTemporary hname hfact
    refine (steady_modifyScope hadd).bind fun _ _ => ?_
    exact steady_pure ⟨valueOf_var hname, hfact, fun _ hn => (by cases hn)⟩
  | binary loc op lhs rhs =>
    unfold meaning
    have hlhs : lhs.steps ⊆ Stmt.stepsAll tree.statements :=
      fun e' he' => he (List.mem_cons_of_mem _ (List.mem_append_left _ he'))
    have hrhs : rhs.steps ⊆ Stmt.stepsAll tree.statements :=
      fun e' he' => he (List.mem_cons_of_mem _ (List.mem_append_right _ he'))
    refine (steady_meaning hs hctx lhs hlhs).bind fun left hleft => ?_
    refine (steady_meaning hs hctx rhs hrhs).bind fun right hright => ?_
    refine (steady_ofExcept fun _ _ => trivial).bind fun base _ => ?_
    refine steady_pure (meaning_exact_of ⟨Term.legible_binary.2 ⟨hleft.term.legible, hright.term.legible⟩, ?_⟩ base
      fun _ hn => (by cases hn))
    exact fun n hn => (List.mem_append.1 hn).elim (hleft.term.written n) (hright.term.written n)
  | unary loc op operand =>
    unfold meaning
    have hoperand : operand.steps ⊆ Stmt.stepsAll tree.statements := fun e' he' => he (List.mem_cons_of_mem _ he')
    refine (steady_meaning hs hctx operand hoperand).bind fun inner hinner => ?_
    refine (steady_ofExcept fun _ _ => trivial).bind fun _ _ => ?_
    have hlegible : (Term.unary op inner.term).Of tree := by
      cases op with
      | not => exact hinner.term.legible.not
      | neg =>
        refine hinner.term.legible.neg fun n hn => ?_
        obtain ⟨loc', rfl⟩ := hinner.literal n hn
        exact .inl ⟨loc, loc', he List.mem_cons_self⟩
    exact steady_pure (meaning_exact_of ⟨hlegible, hinner.term.written⟩ _ fun _ hn => (by cases hn))
  | malformed loc kind => exact steady_throw _

theorem steady_checkArgs (hs : AnswersByText tree solver) {ctx : Context} (hctx : ctx.Of tree) (es : List Expr)
    (hes : Expr.stepsAll es ⊆ Stmt.stepsAll tree.statements) (position : Nat) {earlier : NameMap Term}
    (hearlier : ArgumentsOf tree earlier) {params : List RefinedType} (hparams : ∀ p ∈ params, p.DeclaredIn tree) :
    Steady tree solver (ArgumentsOf tree) (checkArgs (Cache.ask solver.settle) ctx position earlier es params) := by
  match es, params with
  | [], _ =>
    rw [checkArgs.eq_def]
    exact steady_pure hearlier
  | _ :: _, [] => exact steady_pure hearlier
  | e :: es, param :: params =>
    unfold checkArgs
    refine (steady_meaning hs hctx e fun e' he' => hes (List.mem_append_left _ he')).bind fun actual hactual => ?_
    have hexpected := (hparams param List.mem_cons_self).subst hearlier
    refine (steady_checkSubtype hs hactual hexpected _ _).bind fun _ _ => ?_
    refine steady_checkArgs hs hctx es (fun e' he' => hes (List.mem_append_right _ he')) _ ?_
      fun p hp => hparams p (List.mem_cons_of_mem _ hp)
    constructor
    · intro x t hx
      rw [NameMap.get?_insert] at hx
      split at hx
      next =>
        cases hx
        exact hactual.term
      next => exact hearlier.values x t hx
    · intro n
      rw [NameMap.get?_insert, if_neg (boundName_ne_nameAt n position)]
      exact hearlier.unbound n

end

/-! ### Statements -/

theorem steady_store (hs : AnswersByText tree solver) {ctx : Context} {loc : Location} {x : String}
    (hx : Token.isName x = true) {e : Expr} {actual : Meaning} (hactual : actual.Of tree e) :
    Steady tree solver (fun _ => True) (store (Cache.ask solver.settle) ctx loc x actual) := by
  unfold store
  refine steady_getScope.bind fun scope hscope => ?_
  split
  next ty hty =>
    have hexpected := (hscope.vars _ (NameMap.mem_of_get? hty)).2.2 rfl
    refine (steady_checkSubtype hs hactual hexpected _ _).bind fun _ _ => ?_
    exact (steady_retire x).bind fun _ _ => steady_markAssigned x
  next =>
    split
    next => exact steady_throw_bind _ _
    next =>
      refine (steady_retire x).bind fun r hr => ?_
      have hstored : ∀ {t : Term}, t.Of tree → Steady tree solver (fun _ => True) (do
          modifyScope fun s => { s with vars := s.vars.insert x ⟨.exactly actual.ty.base t, false⟩ }
          markAssigned x) := by
        intro t ht
        have hinsert : ∀ s : Scope, s.Of tree →
            Scope.Of tree { s with vars := s.vars.insert x ⟨.exactly actual.ty.base t, false⟩ } :=
          fun s hs => hs.insert hx (RefinedType.of_exactly ht _).1 fun h => (by cases h)
        exact (steady_modifyScope hinsert).bind fun _ _ => steady_markAssigned x
      cases r with
      | none => exact hstored hactual.term.legible
      | some previous => exact hstored (hactual.term.legible.rename x (hr previous rfl))

mutual

theorem steady_checkStmt (hs : AnswersByText tree solver) {ctx : Context} (hctx : ctx.Of tree) (s : Stmt)
    (hsteps : s.steps ⊆ Stmt.stepsAll tree.statements) (hnames : Stmt.Spelled (Token.isName · = true) [s]) :
    Steady tree solver (fun _ => True) (checkStmt (Cache.ask solver.settle) ctx s) := by
  cases s with
  | declare | brk | cont => exact steady_pure trivial
  | funDef loc f params body =>
    unfold checkStmt
    refine (steady_signatureFor hctx _ _ loc).bind fun s hsig => ?_
    obtain ⟨hintroduced, hbody⟩ := Stmt.spelled_funDef.1 hnames
    have hparams : ∀ x ∈ params, Token.isName x = true := fun x hx => hintroduced x (List.mem_cons_of_mem _ hx)
    have hret := hsig.2.subst (argumentsOf_parameterTerms hparams)
    have hctx' : Context.Of tree
        { ctx with result := some (s.ret.subst (parameterTerms params)), inBranch := false } :=
      ⟨hctx.functions, hctx.globals, fun ty hty => Option.some.inj hty ▸ hret⟩
    refine Agree.bind agree_get fun saved saved' hsaved => ?_
    refine Agree.bind (agree_set { hsaved with scope := rfl, assigned := rfl, known := ?_ }) fun _ _ _ => ?_
    · exact of_bodyScope hctx hparams hsig.1
    rw [hsaved.scope, hsaved.assigned]
    refine Steady.bind (steady_checkAll hs hctx' body hsteps hbody) fun _ _ => ?_
    exact steady_modify fun _ _ hst => { hst with scope := rfl, assigned := rfl, known := hsaved.known }
  | branch loc c ts es =>
    unfold checkStmt
    obtain ⟨hts, hes⟩ := Stmt.spelled_branch.1 hnames
    have hc : c.steps ⊆ Stmt.stepsAll tree.statements :=
      fun e he => hsteps (List.mem_append_left _ (List.mem_append_left _ he))
    have hthen : Stmt.stepsAll ts ⊆ Stmt.stepsAll tree.statements :=
      fun e he => hsteps (List.mem_append_left _ (List.mem_append_right _ he))
    have helse : Stmt.stepsAll es ⊆ Stmt.stepsAll tree.statements :=
      fun e he => hsteps (List.mem_append_right _ he)
    have hctx' : Context.Of tree { ctx with inBranch := true } := ⟨hctx.functions, hctx.globals, hctx.result⟩
    refine (steady_meaning hs hctx c hc).bind fun m hm => ?_
    refine (steady_ofExcept (Q := fun _ => True) fun _ _ => trivial).bind fun _ _ => ?_
    refine Agree.bind agree_get fun before before' hbefore => ?_
    rw [hbefore.scope, hbefore.assigned]
    have hknown := hbefore.known
    refine Steady.bind (steady_setScope (hknown.addCondition hm.term.legible)) fun _ _ => ?_
    refine (steady_checkAll hs hctx' ts hthen hts).bind fun _ _ => ?_
    refine (steady_setScope (hknown.addCondition hm.term.legible.not)).bind fun _ _ => ?_
    refine (steady_checkAll hs hctx' es helse hes).bind fun _ _ => ?_
    refine (steady_setScope hknown).bind fun _ _ => ?_
    refine Agree.bind agree_get fun after after' hafter => ?_
    rw [hafter.assigned]
    exact steady_retireAll _
  | loop => exact steady_throw _
  | ret loc value =>
    unfold checkStmt
    split
    next => exact steady_pure trivial
    next => exact steady_throw _
    next expected e hresult =>
      refine (steady_meaning hs hctx e hsteps).bind fun m hm => ?_
      exact steady_checkSubtype hs hm (hctx.result expected hresult) _ _
  | assign loc x e =>
    unfold checkStmt
    have hx : Token.isName x = true :=
      hnames _ (List.mem_append_left _ (Stmt.mem_parts_self _)) x (List.mem_singleton_self x)
    refine steady_getScope.bind fun scope _ => ?_
    split
    next => exact steady_throw_bind _ _
    next => exact (steady_meaning hs hctx e hsteps).bind fun m hm => steady_store hs hx hm
  | expr loc e => exact (steady_meaning hs hctx e hsteps).bind fun _ _ => steady_pure trivial
  | malformed => exact steady_throw _

theorem steady_checkAll (hs : AnswersByText tree solver) {ctx : Context} (hctx : ctx.Of tree) (ss : List Stmt)
    (hsteps : Stmt.stepsAll ss ⊆ Stmt.stepsAll tree.statements) (hnames : Stmt.Spelled (Token.isName · = true) ss) :
    Steady tree solver (fun _ => True) (checkAll (Cache.ask solver.settle) ctx ss) := by
  match ss with
  | [] => exact steady_pure trivial
  | s :: ss =>
    obtain ⟨hs', hss⟩ := Stmt.spelled_cons.1 hnames
    unfold checkAll
    refine (steady_checkStmt hs hctx s (fun e he => hsteps (List.mem_append_left _ he)) hs').bind fun _ _ => ?_
    exact steady_checkAll hs hctx ss (fun e he => hsteps (List.mem_append_right _ he)) hss

end

/-! ### Programs -/

theorem named_of_parse {text : String} (h : Tree.parse text = .ok tree) :
    tree.Named (Token.isName · = true) := by
  refine Parse.program_named (fun l hl x hx => ?_) h
  have hscanned := Token.scanned_of_mem_scanFrom 0 _ l hl
  rw [hx] at hscanned
  exact (Token.isName_of_scanned hscanned).1

theorem context_of_recorded (hnames : tree.Named (Token.isName · = true)) {ds : Declarations}
    (h : Recorded (tree.declarationsFor layerName) ds) : Context.Of tree ⟨ds.functions, ds.vars, none, false⟩ := by
  refine ⟨fun f s hf => ?_, fun p hp => ?_, fun ty hty => (by cases hty)⟩
  · obtain ⟨d, hd, s₀, hs₀, hs⟩ := h.functions f s hf
    have hread : s₀.Readable := LiquidType.readable_of_parse hs₀
    have hpredicate : ∀ ty ∈ s₀.ret :: s₀.args, ∀ r, ty.refinement = some r → tree.Predicate r.predicate := by
      intro ty hty r hr
      refine ⟨d, hd, _, hs₀, List.mem_flatMap.2 ⟨ty, hty, ?_⟩⟩
      simp [hr]
    obtain ⟨hargs, hret⟩ := Canonical.repositioned_signature hs
    constructor
    · intro arg' harg'
      obtain ⟨arg, harg, hre⟩ := hargs arg' harg'
      exact .of_repositioned (hread.1 arg harg) (hpredicate arg (List.mem_cons_of_mem _ harg)) hre
    · exact .of_repositioned hread.2 (hpredicate s₀.ret List.mem_cons_self) hret
  · obtain ⟨d, hd, hname, hty⟩ := h.vars p.1 p.2 (h.sorted.get? hp)
    have hdeclared := Tree.named_identifier hnames (List.mem_filter.1 hd).1
    rw [hname] at hdeclared
    have hread : p.2.Readable := LiquidType.readable_of_parse hty
    refine ⟨hdeclared, (RefinedType.DeclaredIn.of_predicate hread fun r hr => ⟨d, hd, _, hty, ?_⟩).expected⟩
    simp [LiquidType.predicates, hr]

/-- Negations that are spelled in two ways are those of numbers that the solver tries in any case. -/
theorem answersByText_of_lt (hbound : fits64 solver.bound = true)
    (h : ∀ n, 0 < n → tree.Literal (-n) → tree.Negates n → n < solver.bound) : AnswersByText tree solver := by
  intro q q' hq hq' hrender valid hanswer
  have halike := hq.alike_of_render hq' hrender
  have hfits : ∀ n, 0 < n → tree.Literal (-n) ∧ tree.Negates n → fits64 (-n) = true := by
    intro n hn hV
    have hlt := h n hn hV.1 hV.2
    have hrange := fits64_iff.1 hbound
    exact fits64_iff.2 (by omega)
  have hsettle := Solver.toOption_settle (s := solver) halike (fun n hn hV => h n hn hV.1 hV.2) hfits
  rw [hanswer] at hsettle
  cases hq' : solver.settle q' with
  | error e =>
    rw [hq'] at hsettle
    cases hsettle
  | ok valid' =>
    rw [hq'] at hsettle
    cases hsettle
    rfl

theorem checkProgram_eq (hs : AnswersByText tree solver) (hnames : tree.Named (Token.isName · = true))
    {ds : Declarations} (hds : Recorded (tree.declarationsFor layerName) ds) (capacity capacity' : Nat) :
    (checkProgram (Cache.ask solver.settle) (.empty capacity') ds.vars ds.functions tree.statements).1 =
      (checkProgram (Cache.ask solver.settle) (.empty capacity) ds.vars ds.functions tree.statements).1 := by
  have hctx := context_of_recorded hnames hds
  have hstart : Matched tree solver (.start ds.vars (.empty capacity)) (.start ds.vars (.empty capacity')) :=
    ⟨rfl, rfl, rfl, Scope.of_ofDeclared hctx.globals, fun _ he => (by cases he), fun _ he => (by cases he)⟩
  have hspelled : Stmt.Spelled (Token.isName · = true) tree.statements :=
    fun s hs x hx => Stmt.named_introduced hnames hs hx
  obtain ⟨houtcome, -⟩ := steady_checkAll hs hctx tree.statements (fun _ => id) hspelled _ _ hstart
  exact houtcome.eq fun _ _ h => h.1

end Liquid

namespace Layer

open Liquid

theorem outcome_checkLiquid {tree : Tree} {table table' : FactTable} {ds : Declarations}
    (h : (recordAll ⟨[], []⟩ (tree.declarationsFor layerName)).run.run table = (.ok ds, table'))
    (options : LiquidOptions) : (checkLiquid options tree table).outcome =
      (checkProgram (Cache.ask (Solver.settle ⟨options.solverBound, options.maxAssignments⟩))
        (.empty options.cacheCapacity) ds.vars ds.functions tree.statements).1 := by
  unfold checkLiquid
  rw [h]

/-- For a program in which the negation of a number is spelled in two ways only if the number is below the solver's
bound, the outcome of the check and the facts that it records do not depend on the capacity of the cache. -/
theorem checkLiquid_cacheCapacity {text : String} {tree : Tree} (hparse : Tree.parse text = .ok tree)
    (options : LiquidOptions) (hbound : fits64 options.solverBound = true)
    (hspelling : ∀ n, 0 < n → tree.Literal (-n) → tree.Negates n → n < options.solverBound) (capacity : Nat)
    (table : FactTable) :
    (checkLiquid { options with cacheCapacity := capacity } tree table).outcome =
        (checkLiquid options tree table).outcome ∧
      (checkLiquid { options with cacheCapacity := capacity } tree table).table =
        (checkLiquid options tree table).table := by
  refine ⟨?_, rfl⟩
  cases hrun : (recordAll ⟨[], []⟩ (tree.declarationsFor layerName)).run.run table with
  | mk declarations table' =>
    cases declarations with
    | error fault =>
      unfold checkLiquid
      rw [hrun]
    | ok ds =>
      have hs : AnswersByText tree ⟨options.solverBound, options.maxAssignments⟩ :=
        answersByText_of_lt hbound hspelling
      rw [outcome_checkLiquid hrun, outcome_checkLiquid hrun]
      exact checkProgram_eq hs (named_of_parse hparse) (recorded_of_recordAll hrun) _ _

/-! ### A number below the bound -/

/-- The negation of three is a literal in the type of `x` and stands behind a minus sign in its values. -/
def smallText : String := "x : liquid : \x7bv:Int | v >= -3\x7d\nx = -3\nx = -3\n"

def smallDeclaration : Declaration := ⟨⟨1, 1⟩, "x", "liquid", "\x7bv:Int | v >= -3\x7d"⟩

def smallPredicate : Term := .binary .ge (.var "v") (.int (-3))

def smallStatements : List Stmt :=
  [.declare smallDeclaration, .assign ⟨2, 1⟩ "x" (.unary ⟨2, 5⟩ .neg (.num ⟨2, 6⟩ 3)),
    .assign ⟨3, 1⟩ "x" (.unary ⟨3, 5⟩ .neg (.num ⟨3, 6⟩ 3))]

theorem parse_smallText : (Tree.parse smallText).toOption.map
    (fun tree => (tree.statements, tree.declarationsFor layerName)) =
      some (smallStatements, [smallDeclaration]) := by cbv

theorem parse_smallDeclaration :
    LiquidType.parse smallDeclaration.text = .ok (.value (.refined .int "v" smallPredicate)) := by cbv

/-- Both spellings occur, and the program passes with a cache of any capacity. -/
theorem smallText_passes : ∃ tree, Tree.parse smallText = .ok tree ∧ tree.Literal (-3) ∧ tree.Negates 3 ∧
    ∀ capacity, (checkLiquid { cacheCapacity := capacity } tree .empty).outcome = .ok () := by
  obtain ⟨tree, hparse, hread⟩ := Tree.exists_parse parse_smallText
  obtain ⟨hstatements, hdeclarations⟩ := Prod.mk.inj hread
  have hpredicate : tree.Predicate smallPredicate := by
    refine ⟨smallDeclaration, ?_, _, parse_smallDeclaration, List.mem_singleton_self _⟩
    rw [hdeclarations]
    exact List.mem_singleton_self _
  have hnegates : ∀ n, tree.Negates n → n = 3 := by
    intro n h
    simp only [Tree.Negates, Tree.Writes, hstatements] at h
    rcases h with ⟨loc, loc', h⟩ | ⟨-, loc, h⟩ <;>
      simp [smallStatements, Stmt.stepsAll, Stmt.steps, Expr.steps] at h <;> omega
  have hone : (checkLiquid {} tree .empty).outcome = .ok () := by
    simp only [checkLiquid, hdeclarations, hstatements]
    cbv
  refine ⟨tree, hparse, .inr ⟨_, hpredicate, by decide⟩, .inl ⟨⟨2, 5⟩, ⟨2, 6⟩, ?_⟩, fun capacity => ?_⟩
  · rw [hstatements]
    simp [smallStatements, Stmt.stepsAll, Stmt.steps, Expr.steps]
  · rw [← hone]
    refine (checkLiquid_cacheCapacity hparse {} (by decide) (fun n _ _ hn => ?_) capacity .empty).1
    rw [hnegates n hn]
    decide

/-! ### A number beyond the bound -/

/-- The negation of the greatest word is a literal in the type of `b` and has a minus sign in the call. -/
def largeText : String :=
  "a : liquid : \x7bv:Int | v + 1 > 0\x7d\nb : liquid : \x7bv:Int | v >= -9223372036854775807\x7d\n" ++
    "f : liquid : \x7bk:Int | true\x7d -> \x7bx:Int | x >= k\x7d -> Int\nb = a\nf(-9223372036854775807, a)\n"

def largeDeclarations : List Declaration :=
  [⟨⟨1, 1⟩, "a", "liquid", "\x7bv:Int | v + 1 > 0\x7d"⟩,
    ⟨⟨2, 1⟩, "b", "liquid", "\x7bv:Int | v >= -9223372036854775807\x7d"⟩,
    ⟨⟨3, 1⟩, "f", "liquid", "\x7bk:Int | true\x7d -> \x7bx:Int | x >= k\x7d -> Int"⟩]

def largeStatements : List Stmt :=
  largeDeclarations.map .declare ++ [.assign ⟨4, 1⟩ "b" (.ident ⟨4, 5⟩ "a"),
    .expr ⟨5, 1⟩ (.call ⟨5, 1⟩ "f" [.unary ⟨5, 3⟩ .neg (.num ⟨5, 4⟩ 9223372036854775807), .ident ⟨5, 25⟩ "a"])]

def largeTypes : Declarations where
  vars := [("a", .refined .int "v" (.binary .gt (.binary .add (.var "v") (.int 1)) (.int 0))),
    ("b", .refined .int "v" (.binary .ge (.var "v") (.int (-9223372036854775807))))]
  functions := [("f", ⟨[.refined .int "$arg0" (.bool true),
    .refined .int "$arg1" (.binary .ge (.var "$arg1") (.var "$arg0"))], ⟨.int, none⟩⟩)]

set_option maxRecDepth 8000 in
theorem parse_largeText : (Tree.parse largeText).toOption.map
    (fun tree => (tree.statements, tree.declarationsFor layerName)) = some (largeStatements, largeDeclarations) := by
  cbv

theorem recordAll_largeDeclarations :
    ((recordAll ⟨[], []⟩ largeDeclarations).run.run .empty).1 = .ok largeTypes := by
  have ha : LiquidType.parse "\x7bv:Int | v + 1 > 0\x7d" =
    .ok (.value (.refined .int "v" (.binary .gt (.binary .add (.var "v") (.int 1)) (.int 0)))) := by cbv
  have hb : LiquidType.parse "\x7bv:Int | v >= -9223372036854775807\x7d" =
    .ok (.value (.refined .int "v" (.binary .ge (.var "v") (.int (-9223372036854775807))))) := by cbv
  have hf : LiquidType.parse "\x7bk:Int | true\x7d -> \x7bx:Int | x >= k\x7d -> Int" =
    .ok (.function ⟨[.refined .int "k" (.bool true),
      .refined .int "x" (.binary .ge (.var "x") (.var "k"))], ⟨.int, none⟩⟩) := by cbv
  simp only [largeDeclarations, recordAll, ha, hb, hf]
  rfl

/-- `forall a:Int. (a + 1 > 0) && (a + 1 > 0) && true => a >= t`. -/
def largeQuery (t : Term) : Query where
  bindings := [⟨"a", .int⟩]
  premises := [.binary .gt (.binary .add (.var "a") (.int 1)) (.int 0),
    .binary .gt (.binary .add (.var "a") (.int 1)) (.int 0)]
  conclusion := .binary .ge (.var "a") t

/-- `forall. (t == t) && true => true`. -/
def trivialQuery (t : Term) : Query := ⟨[], [.equal t t], .bool true⟩

def literalQuery : Query := largeQuery (.int (-9223372036854775807))

def negatedQuery : Query := largeQuery (.unary .neg (.int 9223372036854775807))

def argumentQuery : Query := trivialQuery (.unary .neg (.int 9223372036854775807))

/-- Three queries are put: for the assignment, and for the two arguments. The last decides. -/
theorem checkProgram_largeStatements {σ : Type} {answer : Answerer σ} {c₀ c₁ c₂ c₃ : σ}
    (h₁ : answer literalQuery c₀ = (.ok true, c₁)) (h₂ : answer argumentQuery c₁ = (.ok true, c₂))
    {r : Except SolverError Bool} (h₃ : answer negatedQuery c₂ = (r, c₃)) :
    (checkProgram answer c₀ largeTypes.vars largeTypes.functions largeStatements).1.toOption =
      r.toOption.bind fun valid => if valid then some () else none := by
  rw [literalQuery, largeQuery] at h₁
  rw [argumentQuery, trivialQuery, Term.equal] at h₂
  rw [negatedQuery, largeQuery] at h₃
  -- evaluation stops where an answer is needed
  cbv
  simp only [h₁]
  cbv
  simp only [h₂]
  cbv
  simp only [h₃]
  rcases r with e | _ | _ <;> rfl

/-- The answer to the first query is found under the text of the last, unless the second has taken its place. -/
theorem largeText_depends_on_capacity : ∃ tree, Tree.parse largeText = .ok tree ∧
    (checkLiquid {} tree .empty).outcome.toOption = some () ∧
    (checkLiquid { cacheCapacity := 1 } tree .empty).outcome.toOption = none := by
  obtain ⟨tree, hparse, hread⟩ := Tree.exists_parse parse_largeText
  obtain ⟨hstatements, hdeclarations⟩ := Prod.mk.inj hread
  have hrun := recordAll_largeDeclarations
  rw [← hdeclarations] at hrun
  have hoverflow : (Solver.settle ⟨16, 2000000⟩ negatedQuery).toOption = none := by cbv
  have hliteral : Solver.settle ⟨16, 2000000⟩ literalQuery = .ok true := by cbv
  have hargument : Solver.settle ⟨16, 2000000⟩ argumentQuery = .ok true := by cbv
  have hsame : negatedQuery.render = literalQuery.render := by cbv
  have hother : (argumentQuery.render == literalQuery.render) = false := by cbv
  have hother' : (literalQuery.render == argumentQuery.render) = false := by rwa [BEq.comm]
  refine ⟨tree, hparse, ?_, ?_⟩ <;> rw [outcome_checkLiquid (Prod.ext hrun rfl), hstatements]
  all_goals generalize Solver.settle ⟨16, 2000000⟩ = answer at hoverflow hliteral hargument
  · have h₁ : Cache.ask answer literalQuery (.empty 1024) =
        (.ok true, ⟨1024, [(literalQuery.render, true)], 1, 0⟩) := by
      simp [Cache.ask, Cache.empty, Cache.store, hliteral]
    have h₂ : Cache.ask answer argumentQuery ⟨1024, [(literalQuery.render, true)], 1, 0⟩ =
        (.ok true, ⟨1024, [(argumentQuery.render, true), (literalQuery.render, true)], 2, 0⟩) := by
      simp [Cache.ask, Cache.store, List.lookup, hargument, hother, hother', bne]
    have h₃ : Cache.ask answer negatedQuery
          ⟨1024, [(argumentQuery.render, true), (literalQuery.render, true)], 2, 0⟩ =
        (.ok true, ⟨1024, [(literalQuery.render, true), (argumentQuery.render, true)], 3, 1⟩) := by
      simp [Cache.ask, Cache.store, List.lookup, hsame, hother, hother', bne]
    exact checkProgram_largeStatements h₁ h₂ h₃
  · have h₁ : Cache.ask answer literalQuery (.empty 1) = (.ok true, ⟨1, [(literalQuery.render, true)], 1, 0⟩) := by
      simp [Cache.ask, Cache.empty, Cache.store, hliteral]
    have h₂ : Cache.ask answer argumentQuery ⟨1, [(literalQuery.render, true)], 1, 0⟩ =
        (.ok true, ⟨1, [(argumentQuery.render, true)], 2, 0⟩) := by
      simp [Cache.ask, Cache.store, List.lookup, hargument, hother, hother', bne]
    have h₃ : (Cache.ask answer negatedQuery ⟨1, [(argumentQuery.render, true)], 2, 0⟩).1 =
        answer negatedQuery := by
      cases h : answer negatedQuery <;> simp [Cache.ask, List.lookup, hsame, hother', h]
    rw [checkProgram_largeStatements h₁ h₂ (Prod.ext h₃ rfl), hoverflow]
    rfl

end Layer

end LayerCheck
