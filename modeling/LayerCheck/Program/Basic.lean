import LayerCheck.Fault
import LayerCheck.Number.Decimal
import LayerCheck.Operator
import LayerCheck.Syntax.Tree

/-! Programs as statements and expressions. A tree is read as a program without failing: a node whose
children do not fit its production becomes a `malformed` statement or expression, which is an error
only for a check that reaches it. -/
namespace LayerCheck

inductive Expr where
  | num (loc : Location) (value : Int)
  | bool (loc : Location) (value : Bool)
  | ident (loc : Location) (name : String)
  | call (loc : Location) (callee : String) (args : List Expr)
  | binary (loc : Location) (op : BinaryOp) (lhs rhs : Expr)
  | unary (loc : Location) (op : UnaryOp) (operand : Expr)
  | malformed (loc : Location) (kind : NodeKind)
deriving Repr

/-- A line `identifier : layer : text`. -/
structure Declaration where
  loc : Location
  identifier : String
  layer : String
  text : String
deriving DecidableEq, Repr

/-- Statements. An `else if` is an `else` block that holds one conditional, and a missing `else` is an
empty block. -/
inductive Stmt where
  | declare (decl : Declaration)
  | funDef (loc : Location) (name : String) (params : List String) (body : List Stmt)
  | branch (loc : Location) (condition : Expr) (thenBlock elseBlock : List Stmt)
  | loop (loc : Location) (condition : Expr) (body : List Stmt)
  | ret (loc : Location) (value : Option Expr)
  | brk (loc : Location)
  | cont (loc : Location)
  | assign (loc : Location) (target : String) (value : Expr)
  | expr (loc : Location) (value : Expr)
  | malformed (loc : Location) (kind : NodeKind)
deriving Repr

/-- The fault of a node whose children do not fit its production. -/
def misshapen (loc : Location) (kind : NodeKind) : Fault :=
  .located (.malformed s!"unexpected shape for '{kind.label}' node") loc

namespace Expr

def loc : Expr → Location
  | num loc _ | bool loc _ | ident loc _ | call loc _ _ | binary loc _ _ _ | unary loc _ _
  | malformed loc _ => loc

mutual

def ofNode (kind : NodeKind) (loc : Location) (children : List Tree) : Expr :=
  match kind, children with
  | .num, .leaf .int _ text :: _ =>
    match Decimal.int64? text with
    | some value => .num loc value
    | none => .malformed loc kind
  | .trueLit, _ => .bool loc true
  | .falseLit, _ => .bool loc false
  | .ident, .leaf .name _ name :: _ => .ident loc name
  | .funCall, .leaf .name _ callee :: rest => .call loc callee (ofNodes rest)
  | .binOp, .node k₁ l₁ cs₁ :: .leaf .operator _ symbol :: .node k₂ l₂ cs₂ :: _ =>
    match BinaryOp.ofSymbol? symbol with
    | some op => .binary loc op (ofNode k₁ l₁ cs₁) (ofNode k₂ l₂ cs₂)
    | none => .malformed loc kind
  | .unaryOp, .leaf .operator _ symbol :: .node k l cs :: _ =>
    match UnaryOp.ofSymbol? symbol with
    | some op => .unary loc op (ofNode k l cs)
    | none => .malformed loc kind
  | _, _ => .malformed loc kind

/-- The expressions of the nodes among some trees. -/
def ofNodes : List Tree → List Expr
  | [] => []
  | .node k l cs :: rest => ofNode k l cs :: ofNodes rest
  | .leaf .. :: rest => ofNodes rest

end

mutual

/-- The expression itself and every expression below it, each before its parts. -/
def steps : Expr → List Expr
  | call loc callee args => call loc callee args :: stepsAll args
  | binary loc op lhs rhs => binary loc op lhs rhs :: (steps lhs ++ steps rhs)
  | unary loc op operand => unary loc op operand :: steps operand
  | e => [e]

def stepsAll : List Expr → List Expr
  | [] => []
  | e :: es => steps e ++ stepsAll es

end

def fault? : Expr → Option Fault
  | malformed loc kind => some (misshapen loc kind)
  | _ => none

/-- Fails at the first malformed part of an expression. -/
def check (e : Expr) : Except Fault Unit :=
  match e.steps.findSome? fault? with
  | some f => .error f
  | none => .ok ()

end Expr

namespace Declaration

/-- The declaration that a layer node with these children stands for. -/
def ofChildren? (loc : Location) : List Tree → Option Declaration
  | .node .ident _ (.leaf .name _ identifier :: _) :: .leaf .layerName _ layer ::
      .leaf .annotationText _ text :: _ =>
    some ⟨loc, identifier, layer, text⟩
  | _ => none

def ofTree? : Tree → Option Declaration
  | .node .layer loc children => ofChildren? loc children
  | _ => none

end Declaration

namespace Stmt

def kind : Stmt → NodeKind
  | declare _ => .layer
  | funDef .. => .funDef
  | branch .. => .ifStmt
  | loop .. => .whileStmt
  | ret .. => .returnStmt
  | brk _ => .breakStmt
  | cont _ => .continueStmt
  | assign .. => .assign
  | expr .. => .exprStmt
  | malformed _ kind => kind

def loc : Stmt → Location
  | declare decl => decl.loc
  | funDef loc _ _ _ | branch loc _ _ _ | loop loc _ _ | ret loc _ | brk loc | cont loc | assign loc _ _
  | expr loc _ | malformed loc _ => loc

mutual

def ofNode (kind : NodeKind) (loc : Location) (children : List Tree) : Stmt :=
  match kind, children with
  | .layer, children =>
    match Declaration.ofChildren? loc children with
    | some decl => .declare decl
    | none => .malformed loc kind
  | .funDef, children =>
    match funParts children with
    | some (name :: params, body) => .funDef loc name params body
    | _ => .malformed loc kind
  | .ifStmt, .node k₁ l₁ cs₁ :: .node _ _ cs₂ :: rest =>
    match rest with
    | [] => .branch loc (Expr.ofNode k₁ l₁ cs₁) (ofNodes cs₂) []
    | .node k₃ l₃ cs₃ :: _ =>
      let elseBlock :=
        if k₃ = .ifStmt then
          match ofNode k₃ l₃ cs₃ with
          | .malformed .. => ofNodes cs₃
          | nested => [nested]
        else ofNodes cs₃
      .branch loc (Expr.ofNode k₁ l₁ cs₁) (ofNodes cs₂) elseBlock
    | .leaf .. :: _ => .malformed loc kind
  | .whileStmt, .node k₁ l₁ cs₁ :: .node _ _ cs₂ :: _ => .loop loc (Expr.ofNode k₁ l₁ cs₁) (ofNodes cs₂)
  | .returnStmt, .node k l cs :: _ => .ret loc (some (Expr.ofNode k l cs))
  | .returnStmt, _ => .ret loc none
  | .breakStmt, _ => .brk loc
  | .continueStmt, _ => .cont loc
  | .assign, .node .ident _ (.leaf .name _ target :: _) :: .node k l cs :: _ =>
    .assign loc target (Expr.ofNode k l cs)
  | .exprStmt, .node k l cs :: _ => .expr loc (Expr.ofNode k l cs)
  | _, _ => .malformed loc kind

/-- The names of a definition and its body: names only, then one block. -/
def funParts : List Tree → Option (List String × List Stmt)
  | [.node .block _ body] => some ([], ofNodes body)
  | .leaf .name _ name :: rest => (funParts rest).map fun (names, body) => (name :: names, body)
  | _ => none

/-- The statements of the nodes among some trees. -/
def ofNodes : List Tree → List Stmt
  | [] => []
  | .node k l cs :: rest => ofNode k l cs :: ofNodes rest
  | .leaf .. :: rest => ofNodes rest

end

end Stmt

/-- The statements of a whole program. -/
def Tree.statements (t : Tree) : List Stmt := Stmt.ofNodes t.children

end LayerCheck
