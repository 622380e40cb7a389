import Mathlib
import LayerCheck.Proofs.Solver.Validity
import LayerCheck.Refinement.Check

/-! The steps of a check, read backwards: what a step that succeeds has done to the state. Whatever is
checked, temporaries are only added and the solver only answers queries, so a check leaves behind a
solver that is as good as before. -/
namespace LayerCheck

/-- Whatever it is asked from now on, the solver calls a query valid only if it is. -/
def Truthful {σ : Type} (answer : Answerer σ) (s : σ) : Prop :=
  ∀ (asked : List Query) (q : Query), (Query.names q.bindings).Nodup →
    (answer q (asked.foldl (fun s q => (answer q s).2) s)).1 = .ok true → q.Valid

namespace Truthful

variable {σ : Type} {answer : Answerer σ} {s : σ}

theorem valid (h : Truthful answer s) {q : Query} (hn : (Query.names q.bindings).Nodup)
    (hq : (answer q s).1 = .ok true) : q.Valid :=
  h [] q hn hq

theorem next (h : Truthful answer s) (q : Query) : Truthful answer (answer q s).2 :=
  fun asked => h (q :: asked)

end Truthful

/-- Steps that may fail, one after the other. -/
theorem run_bind_eq_ok {ε τ α β : Type} {c : ExceptT ε (StateM τ) α} {f : α → ExceptT ε (StateM τ) β}
    {s s'' : τ} {b : β} : (c >>= f).run.run s = (.ok b, s'') ↔
      ∃ a s', c.run.run s = (.ok a, s') ∧ (f a).run.run s' = (.ok b, s'') := by
  change ExceptT.bindCont f (c s).1 (c s).2 = _ ↔ ∃ a s', c s = (.ok a, s') ∧ _
  obtain ⟨r, s₁⟩ := c s
  cases r with
  | error e => exact ⟨fun h => (by cases h), fun ⟨_, _, h, _⟩ => (by cases h)⟩
  | ok a => exact ⟨fun h => ⟨a, s₁, rfl, h⟩, fun ⟨_, _, h, h'⟩ => (by cases h; exact h')⟩

namespace Liquid

variable {σ α β : Type} {st st' st'' : State σ}

/-- A step succeeds with a result in a new state. -/
def Gives (c : Check σ α) (st : State σ) (a : α) (st' : State σ) : Prop := c.run.run st = (.ok a, st')

theorem gives_of_fst {c : Check σ α} {a : α} (h : (c.run.run st).1 = .ok a) :
    Gives c st a (c.run.run st).2 :=
  Prod.ext h rfl

/-! ### Single steps -/

@[simp] theorem gives_bind {c : Check σ α} {f : α → Check σ β} {b : β} :
    Gives (c >>= f) st b st'' ↔ ∃ a st', Gives c st a st' ∧ Gives (f a) st' b st'' :=
  run_bind_eq_ok

theorem gives_iff {c : Check σ α} {a b : α} (h : c.run.run st = (.ok a, st'')) :
    Gives c st b st' ↔ a = b ∧ st'' = st' := by
  rw [Gives, h, Prod.mk.injEq, Except.ok.injEq]

theorem gives_unit_iff {c : Check σ Unit} {u : Unit} (h : c.run.run st = (.ok (), st'')) :
    Gives c st u st' ↔ st'' = st' :=
  (gives_iff h).trans (and_iff_right rfl)

@[simp] theorem gives_pure {a b : α} : Gives (pure a) st b st' ↔ a = b ∧ st = st' := gives_iff rfl

@[simp] theorem gives_throw {e : Fault} {a : α} : ¬ Gives (throw e) st a st' := by
  intro h
  cases h

@[simp] theorem gives_ofExcept {r : Except Fault α} {a : α} :
    Gives (ofExcept r) st a st' ↔ r = .ok a ∧ st = st' := by
  change (r, st) = _ ↔ _
  rw [Prod.mk.injEq]

@[simp] theorem gives_get {s : State σ} : Gives get st s st' ↔ st = s ∧ st = st' := gives_iff rfl

@[simp] theorem gives_set {s : State σ} {u : Unit} : Gives (set s) st u st' ↔ s = st' := gives_unit_iff rfl

@[simp] theorem gives_modify {f : State σ → State σ} {u : Unit} : Gives (modify f) st u st' ↔ f st = st' :=
  gives_unit_iff rfl

@[simp] theorem gives_getScope {s : Scope} : Gives getScope st s st' ↔ st.scope = s ∧ st = st' := gives_iff rfl

@[simp] theorem gives_setScope {s : Scope} {u : Unit} :
    Gives (setScope s) st u st' ↔ { st with scope := s } = st' :=
  gives_unit_iff rfl

@[simp] theorem gives_modifyScope {f : Scope → Scope} {u : Unit} :
    Gives (modifyScope f) st u st' ↔ { st with scope := f st.scope } = st' :=
  gives_unit_iff rfl

@[simp] theorem gives_markAssigned {x : String} {u : Unit} :
    Gives (markAssigned x) st u st' ↔ { st with assigned := NameSet.insert x st.assigned } = st' :=
  gives_unit_iff rfl

@[simp] theorem gives_freshTemporary {x : String} :
    Gives freshTemporary st x st' ↔ temporaryName st.made = x ∧ { st with made := st.made + 1 } = st' :=
  gives_iff rfl

@[simp] theorem gives_ask {answer : Answerer σ} {q : Query} {r : Except SolverError Bool} :
    Gives (ask answer q) st r st' ↔
      (answer q st.solver).1 = r ∧ { st with solver := (answer q st.solver).2 } = st' :=
  gives_iff rfl

/-! ### Overwritten values -/

/-- The state after the value of a variable in scope has moved to a temporary. -/
def State.retired (st : State σ) (x : String) (w : VariableType) : State σ :=
  { st with scope := st.scope.retire x w (temporaryName st.made), made := st.made + 1 }

theorem gives_retire {x : String} {r : Option String} (h : Gives (retire x) st r st') :
    st.scope.vars.get? x = none ∧ none = r ∧ st = st' ∨
      ∃ w, st.scope.vars.get? x = some w ∧ some (temporaryName st.made) = r ∧ st.retired x w = st' := by
  simp only [retire, gives_bind, gives_getScope] at h
  obtain ⟨_, _, ⟨rfl, rfl⟩, h⟩ := h
  split at h
  next hx => exact .inl ⟨hx, gives_pure.1 h⟩
  next w hx =>
    simp only [gives_bind, gives_freshTemporary, gives_modifyScope, gives_pure] at h
    obtain ⟨_, _, ⟨rfl, rfl⟩, _, _, rfl, h⟩ := h
    exact .inr ⟨w, hx, h⟩

/-! ### Subtyping -/

theorem gives_checkSubtype {answer : Answerer σ} {actual : Meaning} {expected : RefinedType} {text : String}
    {loc : Location} {u : Unit} (h : Gives (checkSubtype answer actual expected text loc) st u st') :
    actual.ty.base = expected.base ∧ (expected.refinement = none ∧ st = st' ∨
      ∃ q, st.scope.query (actual.ty.predicateFor actual.term) (expected.predicateFor actual.term) = .ok q ∧
        (answer q st.solver).1 = .ok true ∧ { st with solver := (answer q st.solver).2 } = st') := by
  unfold checkSubtype at h
  dsimp only at h
  split at h
  next => simp at h
  next hbase =>
    refine ⟨Classical.not_not.1 hbase, ?_⟩
    split at h
    next =>
      simp only [gives_bind, gives_getScope] at h
      obtain ⟨_, _, ⟨rfl, rfl⟩, h⟩ := h
      split at h
      next => exact absurd h gives_throw
      next q hq =>
        simp only [gives_bind, gives_ask] at h
        obtain ⟨r, _, ⟨hr, rfl⟩, h⟩ := h
        split at h
        next => exact absurd h gives_throw
        next => exact .inr ⟨q, hq, hr, (gives_pure.1 h).2⟩
        next => exact absurd h gives_throw
    next hr => exact .inl ⟨by simpa using hr, (gives_pure.1 h).2⟩

/-! ### Assignments -/

/-- The state after a variable has got the type of the values equal to a term. -/
def State.introduced (st : State σ) (x : String) (base : BaseType) (t : Term) : State σ :=
  { st with scope := { st.scope with vars := st.scope.vars.insert x ⟨.exactly base t, false⟩ } }

/-- A value is stored in a declared variable, in another one in scope or in a new one. -/
theorem gives_store {answer : Answerer σ} {ctx : Context} {loc : Location} {x : String} {actual : Meaning}
    {u : Unit} (h : Gives (store answer ctx loc x actual) st u st') :
    ∃ st₂, { st₂ with assigned := NameSet.insert x st₂.assigned } = st' ∧
      ((∃ ty st₁, st.scope.vars.get? x = some ⟨ty, true⟩ ∧
          Gives (checkSubtype answer actual ty ty.render loc) st () st₁ ∧ st₂ = st₁.retired x ⟨ty, true⟩) ∨
        (∃ w, st.scope.vars.get? x = some w ∧ w.declared = false ∧ ctx.inBranch = false ∧
          st₂ = (st.retired x w).introduced x actual.ty.base (actual.term.rename x (temporaryName st.made))) ∨
        (st.scope.vars.get? x = none ∧ ctx.inBranch = false ∧
          st₂ = st.introduced x actual.ty.base actual.term)) := by
  simp only [store, gives_bind, gives_getScope] at h
  obtain ⟨_, _, ⟨rfl, rfl⟩, h⟩ := h
  split at h
  next ty hx =>
    simp only [gives_bind, gives_markAssigned] at h
    obtain ⟨_, st₁, hsub, r, st₂, hretire, h⟩ := h
    refine ⟨st₂, h, .inl ⟨ty, st₁, hx, hsub, ?_⟩⟩
    have hscope : st₁.scope = st.scope := by
      obtain ⟨-, ⟨-, rfl⟩ | ⟨q, -, -, rfl⟩⟩ := gives_checkSubtype hsub <;> rfl
    rcases gives_retire hretire with ⟨hnone, -⟩ | ⟨w, hsome, -, hst⟩
    · rw [hscope, hx] at hnone
      cases hnone
    · rw [hscope, hx] at hsome
      cases hsome
      exact hst.symm
  next hundeclared =>
    split at h
    next =>
      simp only [gives_bind] at h
      obtain ⟨_, _, h, -⟩ := h
      exact absurd h gives_throw
    next hbranch =>
      have hbranch : ctx.inBranch = false := by simpa using hbranch
      simp only [gives_bind, gives_modifyScope, gives_markAssigned] at h
      obtain ⟨r, st₁, hretire, _, _, rfl, h⟩ := h
      refine ⟨_, h, .inr ?_⟩
      rcases gives_retire hretire with ⟨hnone, rfl, rfl⟩ | ⟨w, hsome, rfl, rfl⟩
      · exact .inr ⟨hnone, hbranch, rfl⟩
      · refine .inl ⟨w, hsome, ?_, hbranch, rfl⟩
        obtain ⟨ty, declared⟩ := w
        cases declared with
        | true => exact absurd hsome (hundeclared ty)
        | false => rfl

/-! ### Statements -/

section

variable {answer : Answerer σ} {ctx : Context} {loc : Location} {u : Unit}

theorem gives_assign {x : String} {e : Expr} (h : Gives (checkStmt answer ctx (.assign loc x e)) st u st') :
    ∃ m st₁, Gives (meaning answer ctx e) st m st₁ ∧ Gives (store answer ctx loc x m) st₁ () st' := by
  simp only [checkStmt, gives_bind, gives_getScope] at h
  obtain ⟨_, _, ⟨rfl, rfl⟩, h⟩ := h
  split at h
  next =>
    simp only [gives_bind] at h
    obtain ⟨_, _, h, -⟩ := h
    exact absurd h gives_throw
  next => exact gives_bind.1 h

/-- The body of a definition is checked in a scope of its own, which is left behind. -/
theorem gives_funDef {f : String} {params : List String} {body : List Stmt}
    (h : Gives (checkStmt answer ctx (.funDef loc f params body)) st u st') :
    ∃ s st₁, signatureFor ctx f params.length loc = .ok s ∧
      Gives (checkAll answer { ctx with result := some (s.ret.subst (parameterTerms params)), inBranch := false } body)
        { st with scope := bodyScope ctx params s, assigned := [] } () st₁ ∧
      { st₁ with scope := st.scope, assigned := st.assigned } = st' := by
  simp only [checkStmt, gives_bind, gives_ofExcept, gives_get, gives_set, gives_modify] at h
  obtain ⟨s, _, ⟨hs, rfl⟩, _, _, ⟨rfl, rfl⟩, _, _, rfl, _, st₁, hbody, h⟩ := h
  exact ⟨s, st₁, hs, hbody, h⟩

/-- Both blocks of a conditional start from the scope after the condition. Of the values in that scope, those
of the variables first assigned in a block are moved. -/
theorem gives_branch {c : Expr} {ts es : List Stmt}
    (h : Gives (checkStmt answer ctx (.branch loc c ts es)) st u st') :
    ∃ m st₁ st₂ st₃, Gives (meaning answer ctx c) st m st₁ ∧
      Gives (checkAll answer { ctx with inBranch := true } ts)
        { st₁ with scope := st₁.scope.addCondition m.term } () st₂ ∧
      Gives (checkAll answer { ctx with inBranch := true } es)
        { st₂ with scope := st₁.scope.addCondition m.term.not } () st₃ ∧
      Gives (retireAll (NameSet.diff st₃.assigned st₁.assigned)) { st₃ with scope := st₁.scope } () st' := by
  simp only [checkStmt, gives_bind, gives_ofExcept, gives_get, gives_setScope] at h
  obtain ⟨m, st₁, hc, _, _, ⟨-, rfl⟩, _, _, ⟨rfl, rfl⟩, _, _, rfl, _, st₂, hts, _, _, rfl, _, st₃, hes, _, _, rfl,
    _, _, ⟨rfl, rfl⟩, hretire⟩ := h
  exact ⟨m, st₁, st₂, st₃, hc, hts, hes, hretire⟩

/-- Where a result is expected, a value of that type is returned. -/
theorem gives_ret {value : Option Expr} (h : Gives (checkStmt answer ctx (.ret loc value)) st u st') :
    ctx.result = none ∧ st = st' ∨ ∃ expected e m st₁, ctx.result = some expected ∧ value = some e ∧
      Gives (meaning answer ctx e) st m st₁ ∧
      Gives (checkSubtype answer m expected expected.display e.loc) st₁ () st' := by
  unfold checkStmt at h
  split at h
  next hresult => exact .inl ⟨hresult, (gives_pure.1 h).2⟩
  next => exact absurd h gives_throw
  next expected e hresult =>
    obtain ⟨m, st₁, he, hsub⟩ := gives_bind.1 h
    exact .inr ⟨expected, e, m, st₁, hresult, rfl, he, hsub⟩

end

/-! ### What every check keeps -/

/-- Temporaries are only added, and the solver stays truthful. -/
structure Advances (answer : Answerer σ) (st st' : State σ) : Prop where
  made : st.made ≤ st'.made
  solver : Truthful answer st.solver → Truthful answer st'.solver

namespace Advances

variable {answer : Answerer σ}

theorem refl (st : State σ) : Advances answer st st := ⟨Nat.le_refl _, id⟩

theorem trans (h : Advances answer st st') (h' : Advances answer st' st'') : Advances answer st st'' :=
  ⟨Nat.le_trans h.made h'.made, h'.solver ∘ h.solver⟩

end Advances

/-- Temporaries are added to the scope, and nothing else in it changes. -/
structure Adds (st st' : State σ) : Prop where
  vars : st'.scope.vars = st.scope.vars
  path : st'.scope.path = st.scope.path
  temporaries : st.scope.temporaries <+: st'.scope.temporaries
  assigned : st'.assigned = st.assigned

namespace Adds

theorem refl (st : State σ) : Adds st st := ⟨rfl, rfl, List.prefix_rfl, rfl⟩

theorem trans (h : Adds st st') (h' : Adds st' st'') : Adds st st'' where
  vars := h'.vars.trans h.vars
  path := h'.path.trans h.path
  temporaries := h.temporaries.trans h'.temporaries
  assigned := h'.assigned.trans h.assigned

end Adds

section

variable {answer : Answerer σ} {ctx : Context}

theorem advances_checkSubtype {actual : Meaning} {expected : RefinedType} {text : String} {loc : Location}
    {u : Unit} (h : Gives (checkSubtype answer actual expected text loc) st u st') :
    st'.scope = st.scope ∧ Adds st st' ∧ Advances answer st st' := by
  obtain ⟨-, ⟨-, rfl⟩ | ⟨q, -, -, rfl⟩⟩ := gives_checkSubtype h
  · exact ⟨rfl, .refl st, .refl st⟩
  · exact ⟨rfl, ⟨rfl, rfl, List.prefix_rfl, rfl⟩, Nat.le_refl _, fun ht => ht.next q⟩

theorem advances_retire {x : String} {r : Option String} (h : Gives (retire x) st r st') :
    Advances answer st st' := by
  rcases gives_retire h with ⟨-, -, rfl⟩ | ⟨w, -, -, rfl⟩
  · exact .refl st
  · exact ⟨Nat.le_succ _, id⟩

theorem advances_retireAll {xs : List String} {u : Unit} (h : Gives (retireAll xs) st u st') :
    Advances answer st st' := by
  induction xs generalizing st with
  | nil =>
    obtain ⟨-, rfl⟩ := gives_pure.1 h
    exact .refl st
  | cons x xs ih =>
    obtain ⟨_, st₁, hx, h⟩ := gives_bind.1 h
    exact (advances_retire hx).trans (ih h)

theorem advances_store {loc : Location} {x : String} {actual : Meaning} {u : Unit}
    (h : Gives (store answer ctx loc x actual) st u st') : Advances answer st st' := by
  obtain ⟨st₂, rfl, ⟨ty, st₁, -, hsub, rfl⟩ | ⟨w, -, -, -, rfl⟩ | ⟨-, -, rfl⟩⟩ := gives_store h
  · obtain ⟨-, -, hadv⟩ := advances_checkSubtype hsub
    exact ⟨Nat.le_succ_of_le hadv.made, hadv.solver⟩
  · exact ⟨Nat.le_succ _, id⟩
  · exact ⟨Nat.le_refl _, id⟩

mutual

theorem advances_meaning (e : Expr) {st st' : State σ} {m : Meaning}
    (h : Gives (meaning answer ctx e) st m st') : Adds st st' ∧ Advances answer st st' := by
  cases e with
  | num loc n =>
    rw [meaning, gives_pure] at h
    obtain ⟨-, rfl⟩ := h
    exact ⟨.refl st, .refl st⟩
  | bool loc b =>
    rw [meaning, gives_pure] at h
    obtain ⟨-, rfl⟩ := h
    exact ⟨.refl st, .refl st⟩
  | ident loc x =>
    simp only [meaning, gives_bind, gives_getScope] at h
    obtain ⟨_, _, ⟨rfl, rfl⟩, h⟩ := h
    split at h
    next =>
      obtain ⟨-, rfl⟩ := gives_pure.1 h
      exact ⟨.refl st, .refl st⟩
    next => exact absurd h gives_throw
  | call loc callee args =>
    simp only [meaning, gives_bind, gives_ofExcept, gives_freshTemporary, gives_modifyScope, gives_pure] at h
    obtain ⟨s, _, ⟨-, rfl⟩, arguments, st₁, hargs, _, _, ⟨rfl, rfl⟩, _, _, rfl, -, rfl⟩ := h
    obtain ⟨hadds, hadv⟩ := advances_checkArgs args hargs
    exact ⟨hadds.trans ⟨rfl, rfl, List.prefix_append _ _, rfl⟩, Nat.le_succ_of_le hadv.made, hadv.solver⟩
  | binary loc op l r =>
    simp only [meaning, gives_bind, gives_ofExcept, gives_pure] at h
    obtain ⟨left, st₁, hl, right, st₂, hr, base, _, ⟨-, rfl⟩, -, rfl⟩ := h
    obtain ⟨hadds, hadv⟩ := advances_meaning l hl
    obtain ⟨hadds', hadv'⟩ := advances_meaning r hr
    exact ⟨hadds.trans hadds', hadv.trans hadv'⟩
  | unary loc op e =>
    simp only [meaning, gives_bind, gives_ofExcept, gives_pure] at h
    obtain ⟨inner, st₁, he, _, _, ⟨-, rfl⟩, -, rfl⟩ := h
    exact advances_meaning e he
  | malformed loc kind =>
    rw [meaning] at h
    exact absurd h gives_throw

theorem advances_checkArgs (es : List Expr) {st st' : State σ} {position : Nat}
    {earlier arguments : NameMap Term} {params : List RefinedType}
    (h : Gives (checkArgs answer ctx position earlier es params) st arguments st') :
    Adds st st' ∧ Advances answer st st' := by
  match es, params with
  | e :: es, param :: params =>
    simp only [checkArgs, gives_bind] at h
    obtain ⟨actual, st₁, he, _, st₂, hsub, h⟩ := h
    obtain ⟨hadds, hadv⟩ := advances_meaning e he
    obtain ⟨-, hadds', hadv'⟩ := advances_checkSubtype hsub
    obtain ⟨hadds'', hadv''⟩ := advances_checkArgs es h
    exact ⟨hadds.trans (hadds'.trans hadds''), hadv.trans (hadv'.trans hadv'')⟩
  | [], params =>
    rw [checkArgs, gives_pure] at h
    · obtain ⟨-, rfl⟩ := h
      exact ⟨.refl st, .refl st⟩
    · rintro _ _ _ _ ⟨⟩
  | e :: es, [] =>
    rw [checkArgs, gives_pure] at h
    · obtain ⟨-, rfl⟩ := h
      exact ⟨.refl st, .refl st⟩
    · rintro _ _ _ _ _ ⟨⟩

end

mutual

theorem advances_checkStmt (s : Stmt) {ctx : Context} {st st' : State σ} {u : Unit}
    (h : Gives (checkStmt answer ctx s) st u st') : Advances answer st st' := by
  cases s with
  | declare d | brk loc | cont loc =>
    rw [checkStmt, gives_pure] at h
    obtain ⟨-, rfl⟩ := h
    exact .refl st
  | funDef loc name params body =>
    obtain ⟨s, st₁, -, hbody, rfl⟩ := gives_funDef h
    have hadv := advances_checkAll body hbody
    exact ⟨hadv.made, hadv.solver⟩
  | branch loc c ts es =>
    obtain ⟨m, st₁, st₂, st₃, hc, hts, hes, hretire⟩ := gives_branch h
    obtain ⟨-, hc⟩ := advances_meaning c hc
    have hts := advances_checkAll ts hts
    have hes := advances_checkAll es hes
    have hretire : Advances answer _ st' := advances_retireAll hretire
    have hmade : st₁.made ≤ st'.made := Nat.le_trans hts.made (Nat.le_trans hes.made hretire.made)
    exact hc.trans ⟨hmade, hretire.solver ∘ hes.solver ∘ hts.solver⟩
  | loop loc c body =>
    rw [checkStmt] at h
    exact absurd h gives_throw
  | ret loc value =>
    obtain ⟨-, rfl⟩ | ⟨expected, e, m, st₁, -, -, he, hsub⟩ := gives_ret h
    · exact .refl st
    · exact (advances_meaning _ he).2.trans (advances_checkSubtype hsub).2.2
  | assign loc x e =>
    obtain ⟨m, st₁, he, hstore⟩ := gives_assign h
    exact (advances_meaning e he).2.trans (advances_store hstore)
  | expr loc e =>
    simp only [checkStmt, gives_bind, gives_pure] at h
    obtain ⟨m, st₁, he, -, rfl⟩ := h
    exact (advances_meaning e he).2
  | malformed loc kind =>
    rw [checkStmt] at h
    exact absurd h gives_throw

theorem advances_checkAll (ss : List Stmt) {ctx : Context} {st st' : State σ} {u : Unit}
    (h : Gives (checkAll answer ctx ss) st u st') : Advances answer st st' := by
  match ss with
  | [] =>
    rw [checkAll, gives_pure] at h
    obtain ⟨-, rfl⟩ := h
    exact .refl st
  | s :: ss =>
    simp only [checkAll, gives_bind] at h
    obtain ⟨_, st₁, hs, hss⟩ := h
    exact (advances_checkStmt s hs).trans (advances_checkAll ss hss)

end

end

end Liquid

end LayerCheck
