/-! Operators of expressions and of refinement terms: their spelling and how tightly they bind. -/
namespace LayerCheck

inductive BinaryOp where
  | add | sub | mul
  | eq | ne | lt | le | gt | ge
  | and | or
deriving DecidableEq, Repr

namespace BinaryOp

def symbol : BinaryOp → String
  | add => "+" | sub => "-" | mul => "*"
  | eq => "==" | ne => "!=" | lt => "<" | le => "<=" | gt => ">" | ge => ">="
  | and => "&&" | or => "||"

def all : List BinaryOp := [add, sub, mul, eq, ne, lt, le, gt, ge, and, or]

def ofSymbol? (s : String) : Option BinaryOp := all.find? (·.symbol == s)

/-- Binding strength: an operator of higher precedence binds tighter. -/
def precedence : BinaryOp → Nat
  | or => 1
  | and => 2
  | eq | ne | lt | le | gt | ge => 3
  | add | sub => 4
  | mul => 5

def isArithmetic : BinaryOp → Bool
  | add | sub | mul => true
  | _ => false

def isLogical : BinaryOp → Bool
  | and | or => true
  | _ => false

theorem precedence_pos (op : BinaryOp) : 0 < op.precedence := by cases op <;> decide

end BinaryOp

inductive UnaryOp where
  | not | neg
deriving DecidableEq, Repr

namespace UnaryOp

def symbol : UnaryOp → String
  | not => "!"
  | neg => "-"

def ofSymbol? (s : String) : Option UnaryOp := [not, neg].find? (·.symbol == s)

end UnaryOp

end LayerCheck
