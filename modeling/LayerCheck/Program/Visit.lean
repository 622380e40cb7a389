import LayerCheck.Program.Basic

/-! The expressions of a program in the order in which a check meets them. A malformed statement stands
in the list as a malformed expression, since it ends the visit in the same way. -/
namespace LayerCheck

namespace Stmt

mutual

def steps : Stmt → List Expr
  | declare _ | brk _ | cont _ | ret _ none => []
  | funDef _ _ _ body => stepsAll body
  | branch _ condition thenBlock elseBlock => condition.steps ++ stepsAll thenBlock ++ stepsAll elseBlock
  | loop _ condition body => condition.steps ++ stepsAll body
  | ret _ (some value) | assign _ _ value | expr _ value => value.steps
  | malformed loc kind => [.malformed loc kind]

def stepsAll : List Stmt → List Expr
  | [] => []
  | s :: ss => steps s ++ stepsAll ss

end

end Stmt

/-- The expressions met before the first fault, and that fault if there is one. -/
def visit (program : List Stmt) : List Expr × Option Fault :=
  let steps := Stmt.stepsAll program
  (steps.takeWhile (·.fault?.isNone), steps.findSome? Expr.fault?)

/-- One line of a visit: what the expression is and where. -/
def Expr.describe (e : Expr) : String :=
  let what := match e with
    | .num _ value => s!"num {value}"
    | .bool _ value => s!"bool {value}"
    | .ident _ name => s!"ident {name}"
    | .call _ callee args => s!"call {callee}/{args.length}"
    | .binary _ op _ _ => s!"binary {op.symbol}"
    | .unary _ op _ => s!"unary {op.symbol}"
    | .malformed _ kind => s!"malformed {kind.label}"
  s!"{what} @{e.loc.render}"

end LayerCheck
