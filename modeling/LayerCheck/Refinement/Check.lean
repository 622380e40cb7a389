import LayerCheck.Program.Basic
import LayerCheck.Refinement.Canonical
import LayerCheck.Refinement.Scope
import LayerCheck.Solver.Cache

/-! Checking a program against refined types. Every value that is assigned to a declared variable, passed
to a function or returned from one has to belong to the type expected there, which is a query about the
scope. An undeclared variable has the type of the value last assigned to it alone. Solvers are a
parameter: any way to answer queries will do, with any state of its own. -/
namespace LayerCheck.Liquid

def layerName : String := "liquid"

/-- What does not change along a block of statements. -/
structure Context where
  functions : NameMap Signature
  globals : NameMap RefinedType
  /-- The result type of the function around the block. -/
  result : Option RefinedType
  /-- Whether the block is part of a conditional in that function. -/
  inBranch : Bool

/-- What changes from statement to statement. -/
structure State (σ : Type) where
  scope : Scope
  /-- The variables assigned so far in the function or at the top level. -/
  assigned : NameSet
  /-- The number of temporaries made so far. -/
  made : Nat
  solver : σ

def State.start {σ : Type} (globals : NameMap RefinedType) (solver : σ) : State σ :=
  ⟨.ofDeclared globals, [], 0, solver⟩

/-- Steps of a check. -/
abbrev Check (σ : Type) := ExceptT Fault (StateM (State σ))

variable {σ : Type}

/-! ### Steps -/

def ofExcept {α : Type} (r : Except Fault α) : Check σ α := ExceptT.mk (pure r)

def getScope : Check σ Scope := return (← get).scope

def setScope (s : Scope) : Check σ Unit := modify fun st => { st with scope := s }

def modifyScope (f : Scope → Scope) : Check σ Unit := modify fun st => { st with scope := f st.scope }

def temporaryName (n : Nat) : String := s!"$t{n}"

/-- A name that no program can spell and that was not given out before. -/
def freshTemporary : Check σ String := do
  let st ← get
  set { st with made := st.made + 1 }
  return temporaryName st.made

/-- Puts a query to the solver. -/
def ask (answer : Answerer σ) (q : Query) : Check σ (Except SolverError Bool) := do
  let st ← get
  let (r, solver) := answer q st.solver
  set { st with solver }
  return r

def markAssigned (x : String) : Check σ Unit :=
  modify fun st => { st with assigned := NameSet.insert x st.assigned }

/-- Moves the present value of a variable to a fresh temporary, so that what is known of it stays true
when the variable changes. -/
def retire (x : String) : Check σ (Option String) := do
  match (← getScope).vars.get? x with
  | none => return none
  | some v =>
    let temporary ← freshTemporary
    modifyScope (·.retire x v temporary)
    return some temporary

def retireAll : List String → Check σ Unit
  | [] => return ()
  | x :: xs => do
    let _ ← retire x
    retireAll xs

/-! ### Faults -/

def unknownVariable (scope : Scope) (name : String) (loc : Location) : Fault :=
  .unresolved name layerName loc scope.vars.keys

/-- The signature of a function used with a number of arguments. -/
def signatureFor (ctx : Context) (function : String) (count : Nat) (loc : Location) :
    Except Fault Signature :=
  match ctx.functions.get? function with
  | none => .error (.unresolved function layerName loc ctx.functions.keys)
  | some s =>
    if s.arity ≠ count then .error (.located (.argumentCount function s.arity count) loc) else .ok s

/-! ### Expressions -/

/-- What an expression stands for: a type it belongs to, and the term for its value. -/
structure Meaning where
  ty : RefinedType
  term : Term
deriving DecidableEq, Repr

def Meaning.exact (base : BaseType) (t : Term) : Meaning := ⟨.exactly base t, t⟩

/-- Checks that a value belongs to a type, whose text in an error is `expectedText`. -/
def checkSubtype (answer : Answerer σ) (actual : Meaning) (expected : RefinedType) (expectedText : String)
    (loc : Location) : Check σ Unit := do
  let violation : Fault := .located (.subtype expectedText actual.ty.display) loc
  if actual.ty.base ≠ expected.base then throw violation
  if expected.refinement.isSome then
    let scope ← getScope
    match scope.query (actual.ty.predicateFor actual.term) (expected.predicateFor actual.term) with
    | .error name => throw (unknownVariable scope name loc)
    | .ok q =>
      match ← ask answer q with
      | .error e => throw (e.fault.orLoc loc)
      | .ok true => return ()
      | .ok false => throw violation

def expectBase (actual : Meaning) (base : BaseType) (loc : Location) : Except Fault Unit :=
  if actual.ty.base = base then .ok ()
  else .error (.located (.typeMismatch base.name actual.ty.base.name) loc)

/-- The base type of an operation on two operands, each given with its place. -/
def binaryBase (op : BinaryOp) (lhs rhs : Meaning × Location) : Except Fault BaseType := do
  if op.isArithmetic then
    expectBase lhs.1 .int lhs.2
    expectBase rhs.1 .int rhs.2
    return .int
  else if op.isLogical then
    expectBase lhs.1 .bool lhs.2
    expectBase rhs.1 .bool rhs.2
    return .bool
  else if op = .eq ∨ op = .ne then
    expectBase rhs.1 lhs.1.ty.base rhs.2
    return .bool
  else
    expectBase lhs.1 .int lhs.2
    expectBase rhs.1 .int rhs.2
    return .bool

def unaryBase : UnaryOp → BaseType
  | .not => .bool
  | .neg => .int

mutual

/-- The meaning of an expression. The result of a call becomes a fresh temporary. -/
def meaning (answer : Answerer σ) (ctx : Context) : Expr → Check σ Meaning
  | .num _ value => return .exact .int (.int value)
  | .bool _ value => return .exact .bool (.bool value)
  | .ident loc name => do
    let scope ← getScope
    match scope.vars.get? name with
    | some v => return ⟨v.ty, .var name⟩
    | none => throw (unknownVariable scope name loc)
  | .call loc callee args => do
    let s ← ofExcept (signatureFor ctx callee args.length loc)
    let arguments ← checkArgs answer ctx 0 [] args s.args
    let ty := s.ret.subst arguments
    let temporary ← freshTemporary
    modifyScope (·.addTemporary ⟨temporary, ty.base, ty.predicateFor (.var temporary)⟩)
    return ⟨ty, .var temporary⟩
  | .binary _ op lhs rhs => do
    let left ← meaning answer ctx lhs
    let right ← meaning answer ctx rhs
    let base ← ofExcept (binaryBase op (left, lhs.loc) (right, rhs.loc))
    return .exact base (.binary op left.term right.term)
  | .unary _ op operand => do
    let inner ← meaning answer ctx operand
    ofExcept (expectBase inner (unaryBase op) operand.loc)
    return .exact (unaryBase op) (.unary op inner.term)
  | .malformed loc kind => throw (misshapen loc kind)

/-- Checks arguments from a position on, each against its parameter type with the earlier arguments put
in, and gives the terms of all by their positional names. -/
def checkArgs (answer : Answerer σ) (ctx : Context) (position : Nat) (earlier : NameMap Term) :
    List Expr → List RefinedType → Check σ (NameMap Term)
  | arg :: args, param :: params => do
    let actual ← meaning answer ctx arg
    let expected := param.subst earlier
    checkSubtype answer actual expected expected.display arg.loc
    checkArgs answer ctx (position + 1) (earlier.insert (Canonical.nameAt position) actual.term) args params
  | _, _ => return earlier

end

/-! ### Statements -/

/-- The parameters of a definition by their positional names. -/
def parameterTerms (params : List String) : NameMap Term :=
  NameMap.ofList (params.mapIdx fun i param => (Canonical.nameAt i, .var param))

/-- The scope in which the body of a definition begins. -/
def bodyScope (ctx : Context) (params : List String) (s : Signature) : Scope :=
  (params.zip s.args).foldl (fun scope (param, ty) => scope.declare param (ty.subst (parameterTerms params)))
    (.ofDeclared ctx.globals)

/-- Stores a value in a variable. -/
def store (answer : Answerer σ) (ctx : Context) (loc : Location) (target : String) (actual : Meaning) :
    Check σ Unit := do
  match (← getScope).vars.get? target with
  | some ⟨ty, true⟩ =>
    checkSubtype answer actual ty ty.render loc
    let _ ← retire target
  | _ =>
    if ctx.inBranch then
      throw (.located (.unsupported s!"assignment to unannotated variable '{target}' inside a branch") loc)
    let term := match ← retire target with
      | some previous => actual.term.rename target previous
      | none => actual.term
    modifyScope fun s =>
      { s with vars := s.vars.insert target ⟨.exactly actual.ty.base term, false⟩ }
  markAssigned target

mutual

def checkStmt (answer : Answerer σ) (ctx : Context) : Stmt → Check σ Unit
  | .declare _ | .brk _ | .cont _ => return ()
  | .funDef loc name params body => do
    let s ← ofExcept (signatureFor ctx name params.length loc)
    let saved ← get
    set { saved with scope := bodyScope ctx params s, assigned := [] }
    checkAll answer { ctx with result := some (s.ret.subst (parameterTerms params)), inBranch := false } body
    modify fun st => { st with scope := saved.scope, assigned := saved.assigned }
  | .branch _ condition thenBlock elseBlock => do
    let c ← meaning answer ctx condition
    ofExcept (expectBase c .bool condition.loc)
    let before ← get
    setScope (before.scope.addCondition c.term)
    checkAll answer { ctx with inBranch := true } thenBlock
    setScope (before.scope.addCondition c.term.not)
    checkAll answer { ctx with inBranch := true } elseBlock
    setScope before.scope
    retireAll (NameSet.diff (← get).assigned before.assigned)
  | .loop loc _ _ => throw (.located (.unsupported "while loops") loc)
  | .ret loc value =>
    match ctx.result, value with
    | none, _ => return ()
    | some expected, none => throw (.located (.subtype expected.render "no value") loc)
    | some expected, some e => do
      let actual ← meaning answer ctx e
      checkSubtype answer actual expected expected.display e.loc
  | .assign loc target value => do
    if ctx.functions.contains target && !(← getScope).vars.contains target then
      throw (.located (.unsupported s!"assignment to function name '{target}'") loc)
    let actual ← meaning answer ctx value
    store answer ctx loc target actual
  | .expr _ value => do
    let _ ← meaning answer ctx value
  | .malformed loc kind => throw (misshapen loc kind)

def checkAll (answer : Answerer σ) (ctx : Context) : List Stmt → Check σ Unit
  | [] => return ()
  | s :: ss => do
    checkStmt answer ctx s
    checkAll answer ctx ss

end

/-- Checks a program from the start, and gives the solver's state with the outcome. -/
def checkProgram (answer : Answerer σ) (solver : σ) (globals : NameMap RefinedType)
    (functions : NameMap Signature) (program : List Stmt) : Except Fault Unit × σ :=
  let ctx : Context := ⟨functions, globals, none, false⟩
  let (outcome, st) := (checkAll answer ctx program).run.run (.start globals solver)
  (outcome, st.solver)

end LayerCheck.Liquid
