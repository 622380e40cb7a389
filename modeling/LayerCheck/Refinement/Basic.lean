import LayerCheck.Term.Basic

/-! Refined types: a base type, and possibly a name for its values with a predicate on them. -/
namespace LayerCheck

/-- A name bound in a predicate. -/
structure Refinement where
  name : String
  predicate : Term
deriving DecidableEq, Repr

/-- The predicate with a term for the bound name. -/
def Refinement.instantiate (r : Refinement) (t : Term) : Term := r.predicate.subst (Term.single r.name t)

structure RefinedType where
  base : BaseType
  refinement : Option Refinement
deriving DecidableEq, Repr

namespace RefinedType

def refined (base : BaseType) (name : String) (predicate : Term) : RefinedType :=
  ⟨base, some ⟨name, predicate⟩⟩

/-- The values equal to a term. -/
def singleton (base : BaseType) (t : Term) : RefinedType := refined base "v" (.equal (.var "v") t)

/-- What a value of the type satisfies: the predicate applied to a term for that value. -/
def predicateFor (ty : RefinedType) (t : Term) : Term :=
  match ty.refinement with
  | some r => r.instantiate t
  | none => .bool true

def render (ty : RefinedType) : String :=
  match ty.refinement with
  | some r => "\x7b" ++ r.name ++ ":" ++ ty.base.name ++ " | " ++ r.predicate.render ++ "\x7d"
  | none => ty.base.name

end RefinedType

/-- Argument types and the type of the result. -/
structure Signature where
  args : List RefinedType
  ret : RefinedType
deriving DecidableEq, Repr

namespace Signature

def arity (s : Signature) : Nat := s.args.length

def render (s : Signature) : String :=
  if s.args.isEmpty then "-> " ++ s.ret.render
  else String.join (s.args.map fun arg => arg.render ++ " -> ") ++ s.ret.render

end Signature

/-- What the text of a refinement annotation stands for. -/
inductive LiquidType where
  | value (ty : RefinedType)
  | function (signature : Signature)
deriving DecidableEq, Repr

def LiquidType.render : LiquidType → String
  | value ty => ty.render
  | function signature => signature.render

end LayerCheck
