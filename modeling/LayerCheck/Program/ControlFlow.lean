import LayerCheck.Program.Basic

/-! Where control may go. A `return` belongs in a function, a `break` or `continue` in a loop of the
same function, and nothing may follow one of them in a block. -/
namespace LayerCheck.ControlFlow

inductive Violation where
  | unreachable (exit : NodeKind)
  | outsideFunction
  | outsideLoop (exit : NodeKind)
deriving DecidableEq, Repr

def Violation.message : Violation → String
  | unreachable exit => s!"unreachable statement after '{exit.label}'"
  | outsideFunction => "'return' outside of a function"
  | outsideLoop exit => s!"'{exit.label}' outside of a loop"

def Violation.fault (v : Violation) (loc : Location) : Fault := .located (.controlFlow v.message) loc

/-- Fails at the first statement that follows an exit in the same block. -/
def checkExits : List Stmt → Except Fault Unit
  | s :: t :: rest =>
    if s.kind.isExit then .error ((Violation.unreachable s.kind).fault t.loc) else checkExits (t :: rest)
  | _ => .ok ()

mutual

/-- Checks a statement; the flags tell whether it stands in a function and in a loop of that function. -/
def checkStmt (inFunction inLoop : Bool) : Stmt → Except Fault Unit
  | .declare _ => .ok ()
  | .funDef _ _ _ body => do
    checkExits body
    checkAll true false body
  | .branch _ condition thenBlock elseBlock => do
    condition.check
    checkExits thenBlock
    checkAll inFunction inLoop thenBlock
    checkExits elseBlock
    checkAll inFunction inLoop elseBlock
  | .loop _ _ body => do
    checkExits body
    checkAll inFunction true body
  | .ret loc _ => if inFunction then .ok () else .error (Violation.outsideFunction.fault loc)
  | .brk loc => if inLoop then .ok () else .error ((Violation.outsideLoop .breakStmt).fault loc)
  | .cont loc => if inLoop then .ok () else .error ((Violation.outsideLoop .continueStmt).fault loc)
  | .assign _ _ value => value.check
  | .expr _ value => value.check
  | .malformed loc kind => .error (misshapen loc kind)

def checkAll (inFunction inLoop : Bool) : List Stmt → Except Fault Unit
  | [] => .ok ()
  | s :: ss => do
    checkStmt inFunction inLoop s
    checkAll inFunction inLoop ss

end

/-- Checks a whole program. -/
def check (program : List Stmt) : Except Fault Unit := do
  checkExits program
  checkAll false false program

end LayerCheck.ControlFlow
