import LayerCheck.Name.Map
import LayerCheck.Typing.Declared
import LayerCheck.Typing.Widening

/-! The layer of primitive types. It takes the declared types of the program, adds those of its own
declarations, and checks every assignment, call, operator, condition and `return`. An integer literal
has the narrowest integer type and widens as its place asks. -/
namespace LayerCheck.Primitive

open Widening

def layerName : String := "typecheck"

structure Env where
  vars : NameMap String
  /-- Argument types followed by the result type. -/
  functions : NameMap (List String)

/-! ### Expressions -/

def mismatch (expected found : String) (loc : Location) : Fault := .located (.typeMismatch expected found) loc

def unknownVariable (env : Env) (name : String) (loc : Location) : Fault :=
  .unresolved name layerName loc env.vars.keys

def unknownFunction (env : Env) (name : String) (loc : Location) : Fault :=
  .unresolved name layerName loc env.functions.keys

/-- The argument types and the result type of a function used with a number of arguments. -/
def signatureFor (env : Env) (function : String) (count : Nat) (loc : Location) :
    Except Fault (List String × String) :=
  match env.functions.get? function with
  | none => .error (unknownFunction env function loc)
  | some names =>
    match names.getLast? with
    | none => .error (.located (.malformed s!"function '{function}' has an empty type") loc)
    | some ret =>
      let params := names.dropLast
      if params.length ≠ count then .error (.located (.argumentCount function params.length count) loc)
      else .ok (params, ret)

def unaryType (op : UnaryOp) (ty : String) (loc : Location) : Except Fault String :=
  match op with
  | .not => if ty = "bool" then .ok ty else .error (mismatch "bool" ty loc)
  | .neg => if isNumeric ty then .ok ty else .error (mismatch "a numeric type" ty loc)

/-- The type of an operation at `loc` on two operands, each given with its place. -/
def binaryType (op : BinaryOp) (lhs rhs : String × Location) (loc : Location) : Except Fault String :=
  if op.isLogical then
    if lhs.1 ≠ "bool" then .error (mismatch "bool" lhs.1 lhs.2)
    else if rhs.1 ≠ "bool" then .error (mismatch "bool" rhs.1 rhs.2)
    else .ok "bool"
  else
    match join? lhs.1 rhs.1 with
    | none =>
      let hint := s!"operands of '{op.symbol}' must have compatible types"
      .error { mismatch lhs.1 rhs.1 loc with hints := [hint] }
    | some joined =>
      if !op.isArithmetic then .ok "bool"
      else if isNumeric joined then .ok joined
      else .error (mismatch "a numeric type" joined loc)

mutual

/-- The narrowest type of an expression. -/
def typeOf (env : Env) : Expr → Except Fault String
  | .num _ _ => .ok "byte"
  | .bool _ _ => .ok "bool"
  | .ident loc name =>
    match env.vars.get? name with
    | some ty => .ok ty
    | none => .error (unknownVariable env name loc)
  | .call loc callee args => do
    let (params, ret) ← signatureFor env callee args.length loc
    checkArgs env args params
    return ret
  | .unary _ op operand => do
    let ty ← typeOf env operand
    unaryType op ty operand.loc
  | .binary loc op lhs rhs => do
    let left ← typeOf env lhs
    let right ← typeOf env rhs
    binaryType op (left, lhs.loc) (right, rhs.loc) loc
  | .malformed loc kind => .error (misshapen loc kind)

/-- Checks arguments against parameter types. -/
def checkArgs (env : Env) : List Expr → List String → Except Fault Unit
  | arg :: args, param :: params => do
    let actual ← typeOf env arg
    if widens actual param then checkArgs env args params else throw (mismatch param actual arg.loc)
  | _, _ => .ok ()

end

/-- Checks that an expression may be used at a type. -/
def expect (env : Env) (expected : String) (e : Expr) : Except Fault Unit := do
  let actual ← typeOf env e
  if widens actual expected then .ok () else .error (mismatch expected actual e.loc)

/-! ### Statements -/

mutual

/-- Checks a statement; `result` is the result type of the function around it. -/
def checkStmt (env : Env) (result : Option String) : Stmt → Except Fault Unit
  | .declare _ | .brk _ | .cont _ => .ok ()
  | .funDef loc name params body => do
    let (types, ret) ← signatureFor env name params.length loc
    let vars := (params.zip types).foldl (fun m (param, ty) => m.insert param ty) env.vars
    checkAll { env with vars } (some ret) body
  | .branch _ condition thenBlock elseBlock => do
    expect env "bool" condition
    checkAll env result thenBlock
    checkAll env result elseBlock
  | .loop _ condition body => do
    expect env "bool" condition
    checkAll env result body
  | .ret loc value =>
    match result, value with
    | none, _ => .ok ()
    | some ty, some e => expect env ty e
    | some ty, none => .error (mismatch ty "nothing" loc)
  | .assign loc target value =>
    match env.vars.get? target with
    | none => .error (unknownVariable env target loc)
    | some ty => do
      let actual ← typeOf env value
      if widens actual ty then .ok () else .error (mismatch ty actual loc)
  | .expr _ value => do
    let _ ← typeOf env value
    return ()
  | .malformed loc kind => .error (misshapen loc kind)

def checkAll (env : Env) (result : Option String) : List Stmt → Except Fault Unit
  | [] => .ok ()
  | s :: ss => do
    checkStmt env result s
    checkAll env result ss

end

/-! ### Declarations -/

/-- Writes the declarations of the layer; their types must be primitive, and must not be declared in
the layer of declared types. -/
def recordAll : List Declaration → Recording Unit
  | [] => pure ()
  | d :: ds => do
    let (subject, names) ← Recording.ofExcept ((TypeList.parse d.text).mapError (·.orLoc d.loc))
    if let some ty := names.find? (!primitives.contains ·) then
      let known := ", ".intercalate primitives
      throw (.located (.malformed s!"unknown type '{ty}', expected one of {known}") d.loc)
    if (← get).contains ⟨Declared.layerName, d.identifier, subject.key⟩ then
      throw (.located (.duplicate Declared.layerName d.identifier subject.key) d.loc)
    Recording.write ⟨layerName, d.identifier, subject.key⟩ (.types names) d.loc
    recordAll ds

/-- The types that a layer's facts give, over those of an earlier layer. -/
def Env.extend (env : Env) (table : FactTable) (layer : String) : Env :=
  (table.identifiers layer).foldl (fun env x =>
    let typesAt (subject : Subject) := (table.get? ⟨layer, x, subject.key⟩).bind Fact.types?
    let vars := match (typesAt .variableType).bind List.getLast? with
      | some ty => env.vars.insert x ty
      | none => env.vars
    let functions := match typesAt .functionType with
      | some names => env.functions.insert x names
      | none => env.functions
    ⟨vars, functions⟩) env

/-- The types in force for a program. -/
def Env.ofTable (table : FactTable) : Env :=
  (Env.extend ⟨[], []⟩ table Declared.layerName).extend table layerName

/-- Records the primitive types of a program and checks its statements. -/
def check (tree : Tree) : Recording Unit := do
  recordAll (tree.declarationsFor layerName)
  Recording.ofExcept (checkAll (.ofTable (← get)) none tree.statements)

end LayerCheck.Primitive
