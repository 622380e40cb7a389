import LayerCheck.Text.Location

/-! Syntax trees. A node is tagged with the production that made it and holds nodes and tokens in
source order; nothing about its shape is promised, so a tree built by hand may be malformed. -/
namespace LayerCheck

inductive NodeKind where
  | program | block | layer | funDef | ifStmt | whileStmt | returnStmt | breakStmt | continueStmt
  | assign | exprStmt | funCall | binOp | unaryOp | ident | num | trueLit | falseLit
deriving DecidableEq, Repr

namespace NodeKind

def label : NodeKind → String
  | program => "program" | block => "block" | layer => "layer" | funDef => "fun_def" | ifStmt => "if"
  | whileStmt => "while" | returnStmt => "return" | breakStmt => "break" | continueStmt => "continue"
  | assign => "assign" | exprStmt => "expr_stmt" | funCall => "fun_call" | binOp => "bin_op"
  | unaryOp => "unary_op" | ident => "ident" | num => "num" | trueLit => "true" | falseLit => "false"

def all : List NodeKind :=
  [program, block, layer, funDef, ifStmt, whileStmt, returnStmt, breakStmt, continueStmt, assign,
    exprStmt, funCall, binOp, unaryOp, ident, num, trueLit, falseLit]

def ofLabel? (s : String) : Option NodeKind := all.find? (·.label == s)

/-- Statements after which control does not go on to the next one. -/
def isExit : NodeKind → Bool
  | returnStmt | breakStmt | continueStmt => true
  | _ => false

end NodeKind

inductive LeafKind where
  | name | int | operator | layerName | annotationText
deriving DecidableEq, Repr

inductive Tree where
  | node (kind : NodeKind) (loc : Location) (children : List Tree)
  | leaf (kind : LeafKind) (loc : Location) (text : String)
deriving Repr

namespace Tree

def loc : Tree → Location
  | node _ loc _ => loc
  | leaf _ loc _ => loc

def children : Tree → List Tree
  | node _ _ children => children
  | leaf _ _ _ => []

def isNode : Tree → Bool
  | node .. => true
  | leaf .. => false

mutual

/-- The tree with its productions in parentheses, for instance `(assign (ident x) (num 1))`. -/
def render : Tree → String
  | node kind _ children => "(" ++ kind.label ++ renderAll children ++ ")"
  | leaf _ _ text => text

def renderAll : List Tree → String
  | [] => ""
  | t :: ts => " " ++ t.render ++ renderAll ts

end

mutual

/-- The node itself and every node below it, each before its children. -/
def nodes : Tree → List Tree
  | node kind loc children => node kind loc children :: nodesAll children
  | leaf .. => []

def nodesAll : List Tree → List Tree
  | [] => []
  | t :: ts => t.nodes ++ nodesAll ts

end

mutual

/-- The tokens below a tree, from left to right. -/
def leaves : Tree → List Tree
  | node _ _ children => leavesAll children
  | leaf kind loc text => [leaf kind loc text]

def leavesAll : List Tree → List Tree
  | [] => []
  | t :: ts => t.leaves ++ leavesAll ts

end

end Tree

end LayerCheck
