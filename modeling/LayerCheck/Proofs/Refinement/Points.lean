import Mathlib
import LayerCheck.Proofs.Refinement.Soundness
import LayerCheck.Proofs.Syntax.Statements

/-! The points that a check comes to. A check is a task in a context and a state, and leads to the tasks that it
is made of, each in the state that those before it have left; whether it succeeds in the end does not matter to
the points that it reaches. What holds at the start and is kept by the few ways in which a scope can change holds
at all of them. What happens in a check, be it a new temporary or a fault, happens at one of them. -/
namespace LayerCheck.Liquid

/-- Something that a check does. -/
inductive Task where
  | block (ss : List Stmt)
  | stmt (s : Stmt)
  | expr (e : Expr)
  /-- Arguments from a position on, with the terms of the earlier ones. -/
  | args (position : Nat) (earlier : NameMap Term) (es : List Expr) (params : List RefinedType)
  | store (loc : Location) (target : String) (value : Meaning)
  | retire (x : String)
  | retireAll (xs : List String)
  /-- A new temporary. -/
  | create

structure Point (σ : Type) where
  ctx : Context
  st : State σ
  task : Task

variable {σ : Type} {answer : Answerer σ}

/-- A task comes to one that it is made of. -/
inductive Leads (answer : Answerer σ) : Point σ → Point σ → Prop
  | first {ctx : Context} {st : State σ} {s : Stmt} {ss : List Stmt} :
    Leads answer ⟨ctx, st, .block (s :: ss)⟩ ⟨ctx, st, .stmt s⟩
  | rest {ctx : Context} {st st₁ : State σ} {s : Stmt} {ss : List Stmt} :
    Gives (checkStmt answer ctx s) st () st₁ →
    Leads answer ⟨ctx, st, .block (s :: ss)⟩ ⟨ctx, st₁, .block ss⟩
  | body {ctx : Context} {st : State σ} {loc : Location} {f : String} {params : List String} {body : List Stmt}
      {s : Signature} :
    signatureFor ctx f params.length loc = .ok s →
    Leads answer ⟨ctx, st, .stmt (.funDef loc f params body)⟩
      ⟨{ ctx with result := some (s.ret.subst (parameterTerms params)), inBranch := false },
        { st with scope := bodyScope ctx params s, assigned := [] }, .block body⟩
  | condition {ctx : Context} {st : State σ} {loc : Location} {c : Expr} {ts es : List Stmt} :
    Leads answer ⟨ctx, st, .stmt (.branch loc c ts es)⟩ ⟨ctx, st, .expr c⟩
  | thenBlock {ctx : Context} {st st₁ : State σ} {loc : Location} {c : Expr} {ts es : List Stmt} {m : Meaning} :
    Gives (meaning answer ctx c) st m st₁ → expectBase m .bool c.loc = .ok () →
    Leads answer ⟨ctx, st, .stmt (.branch loc c ts es)⟩
      ⟨{ ctx with inBranch := true }, { st₁ with scope := st₁.scope.addCondition m.term }, .block ts⟩
  | elseBlock {ctx : Context} {st st₁ st₂ : State σ} {loc : Location} {c : Expr} {ts es : List Stmt} {m : Meaning} :
    Gives (meaning answer ctx c) st m st₁ → expectBase m .bool c.loc = .ok () →
    Gives (checkAll answer { ctx with inBranch := true } ts)
      { st₁ with scope := st₁.scope.addCondition m.term } () st₂ →
    Leads answer ⟨ctx, st, .stmt (.branch loc c ts es)⟩
      ⟨{ ctx with inBranch := true }, { st₂ with scope := st₁.scope.addCondition m.term.not }, .block es⟩
  | join {ctx : Context} {st st₁ st₂ st₃ : State σ} {loc : Location} {c : Expr} {ts es : List Stmt} {m : Meaning} :
    Gives (meaning answer ctx c) st m st₁ → expectBase m .bool c.loc = .ok () →
    Gives (checkAll answer { ctx with inBranch := true } ts)
      { st₁ with scope := st₁.scope.addCondition m.term } () st₂ →
    Gives (checkAll answer { ctx with inBranch := true } es)
      { st₂ with scope := st₁.scope.addCondition m.term.not } () st₃ →
    Leads answer ⟨ctx, st, .stmt (.branch loc c ts es)⟩
      ⟨ctx, { st₃ with scope := st₁.scope }, .retireAll (NameSet.diff st₃.assigned st₁.assigned)⟩
  | returned {ctx : Context} {st : State σ} {loc : Location} {e : Expr} {expected : RefinedType} :
    ctx.result = some expected →
    Leads answer ⟨ctx, st, .stmt (.ret loc (some e))⟩ ⟨ctx, st, .expr e⟩
  | assigned {ctx : Context} {st : State σ} {loc : Location} {x : String} {e : Expr} :
    (ctx.functions.contains x && !st.scope.vars.contains x) = false →
    Leads answer ⟨ctx, st, .stmt (.assign loc x e)⟩ ⟨ctx, st, .expr e⟩
  | store {ctx : Context} {st st₁ : State σ} {loc : Location} {x : String} {e : Expr} {m : Meaning} :
    (ctx.functions.contains x && !st.scope.vars.contains x) = false → Gives (meaning answer ctx e) st m st₁ →
    Leads answer ⟨ctx, st, .stmt (.assign loc x e)⟩ ⟨ctx, st₁, .store loc x m⟩
  | expr {ctx : Context} {st : State σ} {loc : Location} {e : Expr} :
    Leads answer ⟨ctx, st, .stmt (.expr loc e)⟩ ⟨ctx, st, .expr e⟩
  | args {ctx : Context} {st : State σ} {loc : Location} {f : String} {es : List Expr} {s : Signature} :
    signatureFor ctx f es.length loc = .ok s →
    Leads answer ⟨ctx, st, .expr (.call loc f es)⟩ ⟨ctx, st, .args 0 [] es s.args⟩
  | result {ctx : Context} {st st₁ : State σ} {loc : Location} {f : String} {es : List Expr} {s : Signature}
      {terms : NameMap Term} :
    signatureFor ctx f es.length loc = .ok s → Gives (checkArgs answer ctx 0 [] es s.args) st terms st₁ →
    Leads answer ⟨ctx, st, .expr (.call loc f es)⟩ ⟨ctx, st₁, .create⟩
  | left {ctx : Context} {st : State σ} {loc : Location} {op : BinaryOp} {l r : Expr} :
    Leads answer ⟨ctx, st, .expr (.binary loc op l r)⟩ ⟨ctx, st, .expr l⟩
  | right {ctx : Context} {st st₁ : State σ} {loc : Location} {op : BinaryOp} {l r : Expr} {m : Meaning} :
    Gives (meaning answer ctx l) st m st₁ →
    Leads answer ⟨ctx, st, .expr (.binary loc op l r)⟩ ⟨ctx, st₁, .expr r⟩
  | operand {ctx : Context} {st : State σ} {loc : Location} {op : UnaryOp} {e : Expr} :
    Leads answer ⟨ctx, st, .expr (.unary loc op e)⟩ ⟨ctx, st, .expr e⟩
  | arg {ctx : Context} {st : State σ} {position : Nat} {earlier : NameMap Term} {e : Expr} {es : List Expr}
      {param : RefinedType} {params : List RefinedType} :
    Leads answer ⟨ctx, st, .args position earlier (e :: es) (param :: params)⟩ ⟨ctx, st, .expr e⟩
  | laterArgs {ctx : Context} {st st₁ st₂ : State σ} {position : Nat} {earlier : NameMap Term} {e : Expr}
      {es : List Expr} {param : RefinedType} {params : List RefinedType} {m : Meaning} :
    Gives (meaning answer ctx e) st m st₁ →
    Gives (checkSubtype answer m (param.subst earlier) (param.subst earlier).display e.loc) st₁ () st₂ →
    Leads answer ⟨ctx, st, .args position earlier (e :: es) (param :: params)⟩
      ⟨ctx, st₂, .args (position + 1) (earlier.insert (Canonical.nameAt position) m.term) es params⟩
  | overwrite {ctx : Context} {st st₁ : State σ} {loc : Location} {x : String} {m : Meaning} {ty : RefinedType} :
    st.scope.vars.get? x = some ⟨ty, true⟩ → Gives (checkSubtype answer m ty ty.render loc) st () st₁ →
    Leads answer ⟨ctx, st, .store loc x m⟩ ⟨ctx, st₁, .retire x⟩
  | replace {ctx : Context} {st : State σ} {loc : Location} {x : String} {m : Meaning} :
    (∀ ty, st.scope.vars.get? x ≠ some ⟨ty, true⟩) → ctx.inBranch = false →
    Leads answer ⟨ctx, st, .store loc x m⟩ ⟨ctx, st, .retire x⟩
  | retireFirst {ctx : Context} {st : State σ} {x : String} {xs : List String} :
    Leads answer ⟨ctx, st, .retireAll (x :: xs)⟩ ⟨ctx, st, .retire x⟩
  | retireRest {ctx : Context} {st st₁ : State σ} {x : String} {xs : List String} {r : Option String} :
    Gives (Liquid.retire x) st r st₁ →
    Leads answer ⟨ctx, st, .retireAll (x :: xs)⟩ ⟨ctx, st₁, .retireAll xs⟩
  | create {ctx : Context} {st : State σ} {x : String} {w : VariableType} :
    st.scope.vars.get? x = some w → Leads answer ⟨ctx, st, .retire x⟩ ⟨ctx, st, .create⟩

/-- A check comes to a point, after any number of tasks in tasks. -/
def Reaches (answer : Answerer σ) : Point σ → Point σ → Prop := Relation.ReflTransGen (Leads answer)

/-- The point at which the check of a program begins. -/
def Point.start (globals : NameMap RefinedType) (functions : NameMap Signature) (solver : σ) (program : List Stmt) :
    Point σ :=
  ⟨⟨functions, globals, none, false⟩, .start globals solver, .block program⟩

/-! ### Later points -/

/-- On the way to a later point temporaries are made and the solver is asked. -/
theorem Leads.advances {p q : Point σ} (h : Leads answer p q) : Advances answer p.st q.st := by
  cases h with
  | rest hs => exact advances_checkStmt _ hs
  | thenBlock hc _ =>
    have hadv := (advances_meaning _ hc).2
    exact ⟨hadv.made, hadv.solver⟩
  | elseBlock hc _ hts =>
    have hadv := (advances_meaning _ hc).2
    have hadv' := advances_checkAll _ hts
    exact ⟨Nat.le_trans hadv.made hadv'.made, hadv'.solver ∘ hadv.solver⟩
  | join hc _ hts hes =>
    have hadv := (advances_meaning _ hc).2
    have hadv' := advances_checkAll _ hts
    have hadv'' := advances_checkAll _ hes
    exact ⟨Nat.le_trans hadv.made (Nat.le_trans hadv'.made hadv''.made), hadv''.solver ∘ hadv'.solver ∘ hadv.solver⟩
  | store _ he => exact (advances_meaning _ he).2
  | result _ hargs => exact (advances_checkArgs _ hargs).2
  | right hl => exact (advances_meaning _ hl).2
  | laterArgs he hsub => exact (advances_meaning _ he).2.trans (advances_checkSubtype hsub).2.2
  | overwrite _ hsub => exact (advances_checkSubtype hsub).2.2
  | retireRest hx => exact advances_retire hx
  | first | body | condition | returned | assigned | expr | args | left | operand | arg | replace | retireFirst |
    create => exact ⟨Nat.le_refl _, id⟩

theorem Reaches.advances {p q : Point σ} (h : Reaches answer p q) : Advances answer p.st q.st := by
  induction h with
  | refl => exact .refl _
  | tail _ hlead ih => exact ih.trans hlead.advances

/-- A block comes to each of its statements, once those before have passed. -/
theorem reaches_stmt {ctx : Context} {st st' : State σ} {earlier : List Stmt} {u : Unit}
    (h : Gives (checkAll answer ctx earlier) st u st') (s : Stmt) (later : List Stmt) :
    Reaches answer ⟨ctx, st, .block (earlier ++ s :: later)⟩ ⟨ctx, st', .stmt s⟩ := by
  induction earlier generalizing st with
  | nil =>
    rw [checkAll, gives_pure] at h
    obtain ⟨-, rfl⟩ := h
    exact .single .first
  | cons first earlier ih =>
    simp only [checkAll, gives_bind] at h
    obtain ⟨_, st₁, hfirst, h⟩ := h
    exact .head (.rest hfirst) (ih h)

/-! ### Obligations and faults -/

/-- What a check has to show at a point: that a value belongs to a type, in some state and for some place. -/
inductive Obliges (answer : Answerer σ) : Point σ → State σ → Meaning → RefinedType → Location → Prop
  | arg {ctx : Context} {st st₁ : State σ} {position : Nat} {earlier : NameMap Term} {e : Expr} {es : List Expr}
      {param : RefinedType} {params : List RefinedType} {m : Meaning} :
    Gives (meaning answer ctx e) st m st₁ →
    Obliges answer ⟨ctx, st, .args position earlier (e :: es) (param :: params)⟩ st₁ m (param.subst earlier) e.loc
  | returned {ctx : Context} {st st₁ : State σ} {loc : Location} {e : Expr} {expected : RefinedType} {m : Meaning} :
    ctx.result = some expected → Gives (meaning answer ctx e) st m st₁ →
    Obliges answer ⟨ctx, st, .stmt (.ret loc (some e))⟩ st₁ m expected e.loc
  | stored {ctx : Context} {st : State σ} {loc : Location} {x : String} {m : Meaning} {ty : RefinedType} :
    st.scope.vars.get? x = some ⟨ty, true⟩ → Obliges answer ⟨ctx, st, .store loc x m⟩ st m ty loc

/-- The task at a point is to use a name of the program that nothing declares there. -/
inductive Lacks : Point σ → Fault → Prop
  | ident {ctx : Context} {st : State σ} {loc : Location} {x : String} :
    st.scope.vars.get? x = none → Lacks ⟨ctx, st, .expr (.ident loc x)⟩ (unknownVariable st.scope x loc)
  | call {ctx : Context} {st : State σ} {loc : Location} {f : String} {es : List Expr} :
    ctx.functions.get? f = none →
    Lacks ⟨ctx, st, .expr (.call loc f es)⟩ (.unresolved f layerName loc ctx.functions.keys)
  | definition {ctx : Context} {st : State σ} {loc : Location} {f : String} {params : List String}
      {body : List Stmt} :
    ctx.functions.get? f = none →
    Lacks ⟨ctx, st, .stmt (.funDef loc f params body)⟩ (.unresolved f layerName loc ctx.functions.keys)

/-- The task at a point is at fault, and not one that it is made of: it lacks a name, or a query for what it has to
show does. Faults of other kinds are not told apart. -/
inductive Blames (answer : Answerer σ) : Point σ → Fault → Prop
  | lacks {p : Point σ} {fault : Fault} : Lacks p fault → Blames answer p fault
  | query {p : Point σ} {st : State σ} {m : Meaning} {expected : RefinedType} {loc : Location} {x : String} :
    Obliges answer p st m expected loc →
    st.scope.query (m.ty.predicateFor m.term) (expected.predicateFor m.term) = .error x →
    Blames answer p (unknownVariable st.scope x loc)
  | other {p : Point σ} {fault : Fault} : (∀ x layer, fault.cause ≠ .unresolved x layer) → Blames answer p fault

theorem blames_of_expectBase {m : Meaning} {base : BaseType} {loc : Location} {fault : Fault}
    (h : expectBase m base loc = .error fault) (p : Point σ) : Blames answer p fault := by
  unfold expectBase at h
  split at h
  next => cases h
  next =>
    cases h
    exact .other fun x layer heq => (by cases heq)

theorem blames_of_binaryBase {op : BinaryOp} {lhs rhs : Meaning × Location} {fault : Fault}
    (h : binaryBase op lhs rhs = .error fault) (p : Point σ) : Blames answer p fault := by
  -- an operand has the wrong base type, whatever the operation
  have wrong {m : Meaning} {base : BaseType} {loc : Location} {next : Unit → Except Fault BaseType}
      (hnext : next () = .error fault → Blames answer p fault)
      (h : (expectBase m base loc >>= next) = .error fault) : Blames answer p fault := by
    rcases bind_eq_error.1 h with h | ⟨u, -, h⟩
    · exact blames_of_expectBase h p
    · exact hnext h
  have done {base : BaseType} (h : (pure base : Except Fault BaseType) = .error fault) : Blames answer p fault :=
    (by cases h)
  unfold binaryBase at h
  split at h
  next => exact wrong (wrong done) h
  next =>
    split at h
    next => exact wrong (wrong done) h
    next =>
      split at h
      next => exact wrong done h
      next => exact wrong (wrong done) h

theorem cause_argumentCount {f : String} {expected found : Nat} {loc : Location} :
    ∀ x layer, (Fault.located (.argumentCount f expected found) loc).cause ≠ .unresolved x layer :=
  fun x layer h => (by cases h)

/-! ### What happens in a check happens at a point -/

section

variable {α β : Type} {ctx : Context} {st st' : State σ}

/-- Something that happens in a sequence of steps only if it happens in one of them. It is told by the number of
temporaries before and after, and by the fault at the end if there is one. -/
structure Happening where
  holds : Nat → Option Fault → Nat → Prop
  quiet (n : Nat) : ¬ holds n none n
  split {n n₁ n₂ : Nat} {fault : Option Fault} : holds n fault n₂ → holds n none n₁ ∨ holds n₁ fault n₂

def faultOf : Except Fault α → Option Fault
  | .error fault => some fault
  | .ok _ => none

def Happens (E : Happening) (c : Check σ α) (st : State σ) : Prop :=
  E.holds st.made (faultOf (c.run.run st).1) (c.run.run st).2.made

variable {E : Happening}

theorem happens_bind {c : Check σ α} {f : α → Check σ β} (h : Happens E (c >>= f) st) :
    Happens E c st ∨ ∃ a st', Gives c st a st' ∧ Happens E (f a) st' := by
  change E.holds st.made (faultOf (ExceptT.bindCont f (c st).1 (c st).2).1)
    (ExceptT.bindCont f (c st).1 (c st).2).2.made at h
  change E.holds st.made (faultOf (c st).1) (c st).2.made ∨ ∃ a st', c st = (.ok a, st') ∧ Happens E (f a) st'
  rcases hc : c st with ⟨e | a, st₁⟩ <;> rw [hc] at h
  · exact .inl h
  · exact (E.split h).imp_right fun h => ⟨a, st₁, rfl, h⟩

/-- Most steps neither fail nor number a temporary. -/
theorem not_happens {c : Check σ α} {a : α} (h : c.run.run st = (.ok a, st')) (hmade : st'.made = st.made) :
    ¬ Happens E c st := by
  intro hE
  rw [Happens, h, hmade] at hE
  exact E.quiet _ hE

theorem happens_bind_of_quiet {c : Check σ α} {f : α → Check σ β} (h : Happens E (c >>= f) st) {a : α}
    (hc : c.run.run st = (.ok a, st')) (hmade : st'.made = st.made) : Happens E (f a) st' := by
  obtain h | ⟨a', st'', hc', h⟩ := happens_bind h
  · exact absurd h (not_happens hc hmade)
  · cases hc.symm.trans hc'
    exact h

theorem happens_ofExcept {r : Except Fault α} (h : Happens E (ofExcept r) st) :
    ∃ fault, r = .error fault ∧ E.holds st.made (some fault) st.made := by
  cases r with
  | error fault => exact ⟨fault, rfl, h⟩
  | ok a => exact absurd h (E.quiet _)

/-- A check comes to a point at which something happens: a temporary is created there, or the task is at fault. -/
def Occurs (E : Happening) (answer : Answerer σ) (p : Point σ) : Prop :=
  ∃ q, Reaches answer p q ∧ (q.task = .create ∧ E.holds q.st.made none (q.st.made + 1) ∨
    ∃ fault n, Blames answer q fault ∧ E.holds n (some fault) n)

theorem Occurs.step {p q : Point σ} (hlead : Leads answer p q) (h : Occurs E answer q) : Occurs E answer p := by
  obtain ⟨r, hr, hE⟩ := h
  exact ⟨r, .head hlead hr, hE⟩

theorem Blames.occurs {p : Point σ} {fault : Fault} (h : Blames answer p fault) {n : Nat}
    (hE : E.holds n (some fault) n) : Occurs E answer p :=
  ⟨p, .refl, .inr ⟨fault, n, h, hE⟩⟩

theorem occurs_of_create (h : Happens E (freshTemporary : Check σ String) st) :
    Occurs E answer ⟨ctx, st, .create⟩ :=
  ⟨_, .refl, .inl ⟨rfl, h⟩⟩

theorem cause_fault_ne (e : SolverError) (loc : Location) (x layer : String) :
    (e.fault.orLoc loc).cause ≠ .unresolved x layer := by
  cases e <;> exact Fault.Cause.noConfusion

theorem Obliges.occurs {p : Point σ} {m : Meaning} {expected : RefinedType} {text : String} {loc : Location}
    (hp : Obliges answer p st m expected loc) (h : Happens E (checkSubtype answer m expected text loc) st) :
    Occurs E answer p := by
  have violation : ∀ x layer, (Fault.located (.subtype text m.ty.display) loc).cause ≠ .unresolved x layer :=
    fun x layer heq => (by cases heq)
  unfold checkSubtype at h
  dsimp only at h
  split at h
  next => exact Blames.occurs (.other violation) h
  next =>
    split at h
    next =>
      replace h := happens_bind_of_quiet h rfl rfl
      split at h
      next x hx => exact Blames.occurs (.query hp hx) h
      next q hq =>
        replace h := happens_bind_of_quiet h rfl rfl
        split at h
        next e _ => exact Blames.occurs (.other (cause_fault_ne e loc)) h
        next => exact absurd h (not_happens rfl rfl)
        next => exact Blames.occurs (.other violation) h
    next => exact absurd h (not_happens rfl rfl)

theorem occurs_of_retire {x : String} (h : Happens E (retire x) st) : Occurs E answer ⟨ctx, st, .retire x⟩ := by
  unfold retire at h
  replace h := happens_bind_of_quiet h rfl rfl
  split at h
  next => exact absurd h (not_happens rfl rfl)
  next w hx =>
    obtain h | ⟨t, st₁, -, h⟩ := happens_bind h
    · exact (occurs_of_create h).step (.create hx)
    · replace h := happens_bind_of_quiet h rfl rfl
      exact absurd h (not_happens rfl rfl)

theorem occurs_of_retireAll {xs : List String} (h : Happens E (retireAll xs) st) :
    Occurs E answer ⟨ctx, st, .retireAll xs⟩ := by
  induction xs generalizing st with
  | nil => exact absurd h (not_happens rfl rfl)
  | cons x xs ih =>
    obtain h | ⟨r, st₁, hx, h⟩ := happens_bind h
    · exact (occurs_of_retire h).step .retireFirst
    · exact (ih h).step (.retireRest hx)

theorem occurs_of_store {loc : Location} {x : String} {m : Meaning} (h : Happens E (store answer ctx loc x m) st) :
    Occurs E answer ⟨ctx, st, .store loc x m⟩ := by
  unfold store at h
  replace h := happens_bind_of_quiet h rfl rfl
  split at h
  next ty hx =>
    obtain h | ⟨_, st₁, hsub, h⟩ := happens_bind h
    · exact Obliges.occurs (.stored hx) h
    obtain h | ⟨r, st₂, -, h⟩ := happens_bind h
    · exact (occurs_of_retire h).step (.overwrite hx hsub)
    · exact absurd h (not_happens rfl rfl)
  next hx =>
    split at h
    next =>
      obtain h | ⟨_, st₁, hthrow, h⟩ := happens_bind h
      · exact Blames.occurs (.other fun x layer heq => (by cases heq)) h
      · exact absurd hthrow gives_throw
    next hbranch =>
      obtain h | ⟨r, st₁, -, h⟩ := happens_bind h
      · exact (occurs_of_retire h).step (.replace hx (by simpa using hbranch))
      · replace h := happens_bind_of_quiet h rfl rfl
        exact absurd h (not_happens rfl rfl)

/-- A function is at fault where it has no signature, or one with another number of arguments. -/
theorem signatureFor_eq_error {f : String} {count : Nat} {loc : Location} {fault : Fault}
    (h : signatureFor ctx f count loc = .error fault) :
    ctx.functions.get? f = none ∧ fault = .unresolved f layerName loc ctx.functions.keys ∨
      ∀ x layer, fault.cause ≠ .unresolved x layer := by
  unfold signatureFor at h
  split at h
  next hf =>
    cases h
    exact .inl ⟨hf, rfl⟩
  next =>
    split at h
    next =>
      cases h
      exact .inr cause_argumentCount
    next => cases h

mutual

theorem occurs_of_meaning (e : Expr) {st : State σ} (h : Happens E (meaning answer ctx e) st) :
    Occurs E answer ⟨ctx, st, .expr e⟩ := by
  cases e with
  | num loc n | bool loc b =>
    rw [meaning] at h
    exact absurd h (not_happens rfl rfl)
  | malformed loc kind =>
    rw [meaning] at h
    exact Blames.occurs (.other fun x layer heq => (by cases heq)) h
  | ident loc x =>
    rw [meaning] at h
    replace h := happens_bind_of_quiet h rfl rfl
    split at h
    next => exact absurd h (not_happens rfl rfl)
    next hx => exact Blames.occurs (.lacks (.ident hx)) h
  | call loc f es =>
    rw [meaning] at h
    obtain h | ⟨s, st₁, hgives, h⟩ := happens_bind h
    · obtain ⟨fault, hs, hE⟩ := happens_ofExcept h
      obtain ⟨hf, rfl⟩ | hother := signatureFor_eq_error hs
      · exact Blames.occurs (.lacks (.call hf)) hE
      · exact Blames.occurs (.other hother) hE
    obtain ⟨hs, rfl⟩ := gives_ofExcept.1 hgives
    obtain h | ⟨terms, st₁, hargs, h⟩ := happens_bind h
    · exact (occurs_of_checkArgs es h).step (.args hs)
    obtain h | ⟨t, st₂, -, h⟩ := happens_bind h
    · exact (occurs_of_create h).step (.result hs hargs)
    · replace h := happens_bind_of_quiet h rfl rfl
      exact absurd h (not_happens rfl rfl)
  | binary loc op l r =>
    rw [meaning] at h
    obtain h | ⟨left, st₁, hl, h⟩ := happens_bind h
    · exact (occurs_of_meaning l h).step .left
    obtain h | ⟨right, st₂, hr, h⟩ := happens_bind h
    · exact (occurs_of_meaning r h).step (.right hl)
    obtain h | ⟨base, st₃, -, h⟩ := happens_bind h
    · obtain ⟨fault, hbase, hE⟩ := happens_ofExcept h
      exact (blames_of_binaryBase hbase _).occurs hE
    · exact absurd h (not_happens rfl rfl)
  | unary loc op e =>
    rw [meaning] at h
    obtain h | ⟨inner, st₁, -, h⟩ := happens_bind h
    · exact (occurs_of_meaning e h).step .operand
    obtain h | ⟨_, st₂, -, h⟩ := happens_bind h
    · obtain ⟨fault, hbase, hE⟩ := happens_ofExcept h
      exact (blames_of_expectBase hbase _).occurs hE
    · exact absurd h (not_happens rfl rfl)

theorem occurs_of_checkArgs (es : List Expr) {st : State σ} {position : Nat} {earlier : NameMap Term}
    {params : List RefinedType} (h : Happens E (checkArgs answer ctx position earlier es params) st) :
    Occurs E answer ⟨ctx, st, .args position earlier es params⟩ := by
  match es, params with
  | e :: es, param :: params =>
    rw [checkArgs] at h
    obtain h | ⟨m, st₁, he, h⟩ := happens_bind h
    · exact (occurs_of_meaning e h).step .arg
    obtain h | ⟨_, st₂, hsub, h⟩ := happens_bind h
    · exact Obliges.occurs (.arg he) h
    · exact (occurs_of_checkArgs es h).step (.laterArgs he hsub)
  | [], params =>
    rw [checkArgs] at h
    · exact absurd h (not_happens rfl rfl)
    · rintro _ _ _ _ ⟨⟩
  | e :: es, [] =>
    rw [checkArgs] at h
    · exact absurd h (not_happens rfl rfl)
    · rintro _ _ _ _ _ ⟨⟩

end

mutual

theorem occurs_of_checkStmt (s : Stmt) {ctx : Context} {st : State σ} (h : Happens E (checkStmt answer ctx s) st) :
    Occurs E answer ⟨ctx, st, .stmt s⟩ := by
  cases s with
  | declare d | brk loc | cont loc =>
    rw [checkStmt] at h
    exact absurd h (not_happens rfl rfl)
  | loop loc c body | malformed loc kind =>
    rw [checkStmt] at h
    exact Blames.occurs (.other fun x layer heq => (by cases heq)) h
  | funDef loc f params body =>
    rw [checkStmt] at h
    obtain h | ⟨s, st₁, hgives, h⟩ := happens_bind h
    · obtain ⟨fault, hs, hE⟩ := happens_ofExcept h
      obtain ⟨hf, rfl⟩ | hother := signatureFor_eq_error hs
      · exact Blames.occurs (.lacks (.definition hf)) hE
      · exact Blames.occurs (.other hother) hE
    obtain ⟨hs, rfl⟩ := gives_ofExcept.1 hgives
    replace h := happens_bind_of_quiet h rfl rfl
    replace h := happens_bind_of_quiet h rfl rfl
    obtain h | ⟨_, st₁, -, h⟩ := happens_bind h
    · exact (occurs_of_checkAll body h).step (.body hs)
    · exact absurd h (not_happens rfl rfl)
  | branch loc c ts es =>
    rw [checkStmt] at h
    obtain h | ⟨m, st₁, hc, h⟩ := happens_bind h
    · exact (occurs_of_meaning c h).step .condition
    obtain h | ⟨_, _, hgives, h⟩ := happens_bind h
    · obtain ⟨fault, hbase, hE⟩ := happens_ofExcept h
      exact (blames_of_expectBase hbase _).occurs hE
    obtain ⟨hbase, rfl⟩ := gives_ofExcept.1 hgives
    replace h := happens_bind_of_quiet h rfl rfl
    replace h := happens_bind_of_quiet h rfl rfl
    obtain h | ⟨_, st₂, hts, h⟩ := happens_bind h
    · exact (occurs_of_checkAll ts h).step (.thenBlock hc hbase)
    replace h := happens_bind_of_quiet h rfl rfl
    obtain h | ⟨_, st₃, hes, h⟩ := happens_bind h
    · exact (occurs_of_checkAll es h).step (.elseBlock hc hbase hts)
    replace h := happens_bind_of_quiet h rfl rfl
    replace h := happens_bind_of_quiet h rfl rfl
    exact (occurs_of_retireAll h).step (.join hc hbase hts hes)
  | ret loc value =>
    unfold checkStmt at h
    split at h
    next => exact absurd h (not_happens rfl rfl)
    next => exact Blames.occurs (.other fun x layer heq => (by cases heq)) h
    next expected e hresult =>
      obtain h | ⟨m, st₁, he, h⟩ := happens_bind h
      · exact (occurs_of_meaning e h).step (.returned hresult)
      · exact Obliges.occurs (.returned hresult he) h
  | assign loc x e =>
    rw [checkStmt] at h
    replace h := happens_bind_of_quiet h rfl rfl
    split at h
    next =>
      obtain h | ⟨_, st₁, hthrow, h⟩ := happens_bind h
      · exact Blames.occurs (.other fun x layer heq => (by cases heq)) h
      · exact absurd hthrow gives_throw
    next hname =>
      have hname : (ctx.functions.contains x && !st.scope.vars.contains x) = false := by simpa using hname
      obtain h | ⟨m, st₁, he, h⟩ := happens_bind h
      · exact (occurs_of_meaning e h).step (.assigned hname)
      · exact (occurs_of_store h).step (.store hname he)
  | expr loc e =>
    rw [checkStmt] at h
    obtain h | ⟨m, st₁, -, h⟩ := happens_bind h
    · exact (occurs_of_meaning e h).step .expr
    · exact absurd h (not_happens rfl rfl)

/-- What happens in a check happens at a point that it comes to. -/
theorem occurs_of_checkAll (ss : List Stmt) {ctx : Context} {st : State σ}
    (h : Happens E (checkAll answer ctx ss) st) : Occurs E answer ⟨ctx, st, .block ss⟩ := by
  match ss with
  | [] =>
    rw [checkAll] at h
    exact absurd h (not_happens rfl rfl)
  | s :: ss =>
    rw [checkAll] at h
    obtain h | ⟨_, st₁, hs, h⟩ := happens_bind h
    · exact (occurs_of_checkStmt s h).step .first
    · exact (occurs_of_checkAll ss h).step (.rest hs)

end

/-! ### New temporaries and faults -/

/-- A step numbers a new temporary, whether it succeeds or fails after that. -/
def Makes (c : Check σ α) (st : State σ) (i : Nat) : Prop := st.made ≤ i ∧ i < (c.run.run st).2.made

/-- A temporary of some number is made. -/
def Happening.making (i : Nat) : Happening where
  holds n _ n' := n ≤ i ∧ i < n'
  quiet _ h := Nat.lt_irrefl i (Nat.lt_of_lt_of_le h.2 h.1)
  split {_ n₁ _ _} h := (Nat.lt_or_ge i n₁).imp (fun hi => ⟨h.1, hi⟩) fun hi => ⟨hi, h.2⟩

/-- Every temporary is numbered at a point that the check comes to. -/
theorem creates_of_checkAll (ss : List Stmt) {i : Nat} (h : Makes (checkAll answer ctx ss) st i) :
    ∃ q, Reaches answer ⟨ctx, st, .block ss⟩ q ∧ q.task = .create ∧ q.st.made = i := by
  have hmaking : Happens (.making i) (checkAll answer ctx ss) st := h
  obtain ⟨q, hq, ⟨htask, hle, hlt⟩ | ⟨fault, n, -, hle, hlt⟩⟩ := occurs_of_checkAll ss hmaking
  · exact ⟨q, hq, htask, Nat.le_antisymm hle (Nat.le_of_lt_succ hlt)⟩
  · exact absurd hlt (Nat.not_lt.2 hle)

/-- A check fails. -/
def Happening.failing (fault : Fault) : Happening where
  holds _ fault' _ := fault' = some fault
  quiet _ h := (by cases h)
  split h := .inr h

/-- A check that fails comes to a point that is at fault. -/
theorem blames_of_checkAll (ss : List Stmt) {fault : Fault}
    (h : ((checkAll answer ctx ss).run.run st).1 = .error fault) :
    ∃ q, Reaches answer ⟨ctx, st, .block ss⟩ q ∧ Blames answer q fault := by
  have hfailing : Happens (.failing fault) (checkAll answer ctx ss) st := by rw [Happens, h]; rfl
  obtain ⟨q, hq, ⟨-, hnone⟩ | ⟨fault', n, hblames, heq⟩⟩ := occurs_of_checkAll ss hfailing
  · cases hnone
  · cases heq
    exact ⟨q, hq, hblames⟩

end

end LayerCheck.Liquid
