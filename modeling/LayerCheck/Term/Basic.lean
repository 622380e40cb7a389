import LayerCheck.Name.Set
import LayerCheck.Number.Ascending
import LayerCheck.Operator

/-! Refinement terms: integer and boolean expressions over named variables, without binders. -/
namespace LayerCheck

inductive BaseType where
  | int | bool
deriving DecidableEq, Repr

namespace BaseType

def name : BaseType → String
  | int => "Int"
  | bool => "Bool"

def ofName? : String → Option BaseType
  | "Int" => some int
  | "Bool" => some bool
  | _ => none

end BaseType

inductive Term where
  | var (name : String)
  | int (value : Int)
  | bool (value : Bool)
  | unary (op : UnaryOp) (operand : Term)
  | binary (op : BinaryOp) (lhs rhs : Term)
deriving DecidableEq, Repr

namespace Term

def not (t : Term) : Term := unary .not t

def equal (lhs rhs : Term) : Term := binary .eq lhs rhs

def freeVars : Term → NameSet
  | var name => [name]
  | int _ | bool _ => []
  | unary _ operand => operand.freeVars
  | binary _ lhs rhs => NameSet.union rhs.freeVars lhs.freeVars

/-- The integer literals of a term, each occurrence once. -/
def literals : Term → List Int
  | int value => [value]
  | var _ | bool _ => []
  | unary _ operand => operand.literals
  | binary _ lhs rhs => lhs.literals ++ rhs.literals

/-- Replaces all variables at once; what is put in is not looked at again. -/
def subst (σ : String → Option Term) : Term → Term
  | var name => (σ name).getD (var name)
  | int value => int value
  | bool value => bool value
  | unary op operand => unary op (operand.subst σ)
  | binary op lhs rhs => binary op (lhs.subst σ) (rhs.subst σ)

/-- The substitution that replaces one name. -/
def single (name : String) (t : Term) : String → Option Term := fun x => if x = name then some t else none

def rename (old new : String) (t : Term) : Term := t.subst (single old (var new))

/-! ### Text -/

/-- How tightly the outermost operator of a term binds; atoms bind tightest. -/
def strength : Term → Nat
  | binary op _ _ => op.precedence
  | unary _ _ => 6
  | _ => 7

/-- A text in parentheses when the term in it binds less tightly than its place asks for. -/
def guarded (least strength : Nat) (text : String) : String :=
  if strength < least then "(" ++ text ++ ")" else text

/-- The text of a term, with no more parentheses than reading it back needs. -/
def render : Term → String
  | var name => name
  | int value => toString value
  | bool value => if value then "true" else "false"
  | unary op operand => op.symbol ++ guarded 6 operand.strength operand.render
  | binary op lhs rhs =>
    guarded op.precedence lhs.strength lhs.render ++ " " ++ op.symbol ++ " " ++
      guarded (op.precedence + 1) rhs.strength rhs.render

theorem mem_freeVars_binary {x : String} {op : BinaryOp} {l r : Term} :
    x ∈ (binary op l r).freeVars ↔ x ∈ l.freeVars ∨ x ∈ r.freeVars := by
  simp [freeVars, NameSet.mem_union, or_comm]

end Term

end LayerCheck
