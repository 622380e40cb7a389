import LayerCheck.Term.Eval

/-! Implications between predicates, over variables of given base types. -/
namespace LayerCheck

structure Binding where
  name : String
  base : BaseType
deriving DecidableEq, Repr

/-- For all values of the bindings, the premises imply the conclusion. -/
structure Query where
  bindings : List Binding
  premises : List Term
  conclusion : Term
deriving DecidableEq, Repr

namespace Query

def render (q : Query) : String :=
  "forall" ++ String.join (q.bindings.map fun b => " " ++ b.name ++ ":" ++ b.base.name) ++ ". " ++
    String.join (q.premises.map fun p => "(" ++ p.render ++ ") && ") ++ "true => " ++ q.conclusion.render

/-- Whether every premise holds, looking at one after the other and stopping at the first that fails. -/
def holds (w : Width) (env : Env) : List Term → Except EvalError Bool
  | [] => .ok true
  | p :: ps => do if ← p.evalBool w env then holds w env ps else return false

/-- Whether the premises hold and the conclusion fails under some values. -/
def refutedBy (w : Width) (q : Query) (env : Env) : Except EvalError Bool := do
  if ← holds w env q.premises then return !(← q.conclusion.evalBool w env) else return false

/-- The integer literals of a query. -/
def literals (q : Query) : List Int := q.premises.flatMap Term.literals ++ q.conclusion.literals

end Query

end LayerCheck
