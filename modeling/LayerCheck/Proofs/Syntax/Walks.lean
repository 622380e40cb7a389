import Mathlib
import LayerCheck.Program.ControlFlow
import LayerCheck.Program.Visit

/-! Walks through a program, one step after the other. The nodes of a tree are those that a walk with a stack of nodes
meets. The visit of a program is what a recursion through its statements and expressions meets until it fails. The
check of control flow finds what a walk finds that counts the functions and loops around it and puts the counts back
on its way out. -/
namespace LayerCheck

/-! ### A stack of nodes -/

namespace Tree

def childNodes (t : Tree) : List Tree := t.children.filter isNode

/-- Takes the last node from a stack and puts the nodes among its children there, the first of them last. -/
def next (stack : List Tree) : Option (Tree × List Tree) :=
  stack.getLast?.map fun t => (t, stack.dropLast ++ t.childNodes.reverse)

/-- The nodes that a walk meets until its stack is empty. -/
inductive Meets : List Tree → List Tree → Prop
  | done {stack : List Tree} : next stack = none → Meets stack []
  | step {stack stack' ts : List Tree} {t : Tree} : next stack = some (t, stack') → Meets stack' ts →
      Meets stack (t :: ts)

variable {t : Tree} {stack stack' ts : List Tree}

theorem nodesAll_append (ts ts' : List Tree) : nodesAll (ts ++ ts') = nodesAll ts ++ nodesAll ts' := by
  induction ts with
  | nil => rfl
  | cons t ts ih => rw [List.cons_append, nodesAll, ih, nodesAll, List.append_assoc]

theorem nodesAll_filter (ts : List Tree) : nodesAll (ts.filter isNode) = nodesAll ts := by
  induction ts with
  | nil => rfl
  | cons t ts ih =>
    cases t with
    | node kind loc children => rw [List.filter_cons_of_pos rfl, nodesAll, ih, nodesAll]
    | leaf kind loc text =>
      rw [List.filter_cons_of_neg Bool.false_ne_true, ih, nodesAll, nodes, List.nil_append]

theorem next_eq_some (h : next stack = some (t, stack')) :
    ∃ below, stack = below ++ [t] ∧ stack' = below ++ t.childNodes.reverse := by
  obtain ⟨t', ht, heq⟩ := Option.map_eq_some_iff.1 h
  cases heq
  exact ⟨stack.dropLast, (List.dropLast_append_getLast? t ht).symm, rfl⟩

/-- A step meets the first of the nodes that are left. -/
theorem nodesAll_of_next (h : next stack = some (t, stack')) (ht : t.isNode = true) :
    nodesAll stack.reverse = t :: nodesAll stack'.reverse := by
  obtain ⟨below, rfl, rfl⟩ := next_eq_some h
  cases t with
  | node kind loc cs =>
    have hchildren : nodesAll (node kind loc cs).childNodes = nodesAll cs := nodesAll_filter cs
    have htop : nodesAll [node kind loc cs] = node kind loc cs :: nodesAll cs := by
      rw [nodesAll, nodes, nodesAll, List.append_nil]
    rw [List.reverse_append, List.reverse_append, List.reverse_reverse, nodesAll_append, nodesAll_append, hchildren,
      List.reverse_singleton, htop, List.cons_append]
  | leaf kind loc text => cases ht

theorem isNode_of_next (h : next stack = some (t, stack')) (hstack : ∀ t ∈ stack, t.isNode = true) :
    t.isNode = true ∧ ∀ t ∈ stack', t.isNode = true := by
  obtain ⟨below, rfl, rfl⟩ := next_eq_some h
  obtain ⟨hbelow, ht⟩ := List.forall_mem_append.1 hstack
  refine ⟨ht t (List.mem_singleton_self t), List.forall_mem_append.2 ⟨hbelow, fun t' ht' => ?_⟩⟩
  exact (List.mem_filter.1 (List.mem_reverse.1 ht')).2

theorem Meets.eq_nodesAll (h : Meets stack ts) (hstack : ∀ t ∈ stack, t.isNode = true) :
    ts = nodesAll stack.reverse := by
  induction h with
  | @done stack hnext =>
    have hnil : stack = [] := by simpa [next] using hnext
    rw [hnil, List.reverse_nil, nodesAll]
  | step hnext _ ih =>
    obtain ⟨ht, hstack'⟩ := isNode_of_next hnext hstack
    rw [nodesAll_of_next hnext ht, ih hstack']

theorem meets_nodesAll (n : Nat) (hstack : ∀ t ∈ stack, t.isNode = true) (hn : (nodesAll stack.reverse).length = n) :
    Meets stack (nodesAll stack.reverse) := by
  induction n generalizing stack with
  | zero =>
    have hnil : nodesAll stack.reverse = [] := List.length_eq_zero_iff.1 hn
    cases hnext : next stack with
    | none => exact hnil ▸ .done hnext
    | some p => cases hnil.symm.trans (nodesAll_of_next hnext (isNode_of_next hnext hstack).1)
  | succ n ih =>
    cases hnext : next stack with
    | none =>
      have hempty : stack = [] := by simpa [next] using hnext
      rw [hempty] at hn
      cases hn
    | some p =>
      obtain ⟨ht, hstack'⟩ := isNode_of_next hnext hstack
      rw [nodesAll_of_next hnext ht] at hn ⊢
      exact .step hnext (ih hstack' (Nat.succ.inj hn))

/-- A walk that starts with one node on its stack meets the nodes of that tree, each before its children. -/
theorem meets_iff (ht : t.isNode = true) : Meets [t] ts ↔ ts = t.nodes := by
  have hnodes : nodesAll [t].reverse = t.nodes := by
    rw [List.reverse_singleton, nodesAll, nodesAll, List.append_nil]
  have hstack : ∀ t' ∈ [t], t'.isNode = true := List.forall_mem_singleton.2 ht
  rw [← hnodes]
  exact ⟨fun h => h.eq_nodesAll hstack, fun h => h ▸ meets_nodesAll _ hstack rfl⟩

end Tree

/-! ### A visit that fails -/

/-- What a visit does: it meets expressions, and may fail. -/
abbrev Visitor := ExceptT Fault (StateM (List Expr))

def meet (e : Expr) : Visitor Unit := modify (· ++ [e])

mutual

/-- Visits an expression and then its parts. -/
def Expr.visit : Expr → Visitor Unit
  | .malformed loc kind => throw (misshapen loc kind)
  | .call loc callee args => do
    meet (.call loc callee args)
    visitAll args
  | .binary loc op lhs rhs => do
    meet (.binary loc op lhs rhs)
    lhs.visit
    rhs.visit
  | .unary loc op operand => do
    meet (.unary loc op operand)
    operand.visit
  | e => meet e

def Expr.visitAll : List Expr → Visitor Unit
  | [] => pure ()
  | e :: es => do
    e.visit
    visitAll es

end

mutual

def Stmt.visit : Stmt → Visitor Unit
  | .declare _ | .brk _ | .cont _ | .ret _ none => pure ()
  | .funDef _ _ _ body => visitAll body
  | .branch _ condition thenBlock elseBlock => do
    condition.visit
    visitAll thenBlock
    visitAll elseBlock
  | .loop _ condition body => do
    condition.visit
    visitAll body
  | .ret _ (some value) | .assign _ _ value | .expr _ value => value.visit
  | .malformed loc kind => throw (misshapen loc kind)

def Stmt.visitAll : List Stmt → Visitor Unit
  | [] => pure ()
  | s :: ss => do
    s.visit
    visitAll ss

end

/-- Meets an expression that is not malformed. -/
def meetSound (e : Expr) : Visitor Unit :=
  match e.fault? with
  | some f => throw f
  | none => meet e

/-- Meets expressions in order, until one is malformed. -/
def meetAll : List Expr → Visitor Unit
  | [] => pure ()
  | e :: es => do
    meetSound e
    meetAll es

theorem meetAll_append (es es' : List Expr) : meetAll (es ++ es') = meetAll es >>= fun _ => meetAll es' := by
  induction es with
  | nil => simp [meetAll]
  | cons e es ih => rw [List.cons_append, meetAll, ih, meetAll, bind_assoc]

theorem meetAll_singleton (e : Expr) (h : e.fault? = none) : meetAll [e] = meet e := by
  simp [meetAll, meetSound, h]

theorem run_meetAll (es seen : List Expr) : (meetAll es).run.run seen =
    ((es.findSome? Expr.fault?).elim (.ok ()) .error, seen ++ es.takeWhile (·.fault?.isNone)) := by
  induction es generalizing seen with
  | nil => exact congrArg _ (List.append_nil seen).symm
  | cons e es ih =>
    rw [meetAll, meetSound, List.findSome?_cons, List.takeWhile_cons]
    cases e.fault? with
    | some f => exact congrArg _ (List.append_nil seen).symm
    | none =>
      have hrest := ih (seen ++ [e])
      rw [List.append_assoc, List.singleton_append] at hrest
      exact hrest

mutual

theorem Expr.visit_eq_meetAll (e : Expr) : e.visit = meetAll e.steps := by
  cases e with
  | num | bool | ident => rw [visit, steps, meetAll_singleton _ rfl] <;> simp
  | malformed loc kind => simp [visit, steps, meetAll, meetSound, fault?]
  | call loc callee args => simp [visit, steps, meetAll, meetSound, fault?, visitAll_eq_meetAll args]
  | binary loc op lhs rhs =>
    simp [visit, steps, meetAll, meetSound, fault?, lhs.visit_eq_meetAll, rhs.visit_eq_meetAll, meetAll_append]
  | unary loc op operand => simp [visit, steps, meetAll, meetSound, fault?, operand.visit_eq_meetAll]

theorem Expr.visitAll_eq_meetAll (es : List Expr) : visitAll es = meetAll (stepsAll es) := by
  match es with
  | [] => rfl
  | e :: es => rw [visitAll, stepsAll, meetAll_append, e.visit_eq_meetAll, visitAll_eq_meetAll es]

end

mutual

theorem Stmt.visit_eq_meetAll (s : Stmt) : s.visit = meetAll s.steps := by
  cases s with
  | declare | brk | cont => simp [visit, steps, meetAll]
  | funDef loc name params body => rw [visit, steps, visitAll_eq_meetAll body]
  | branch loc c ts es =>
    simp [visit, steps, meetAll_append, c.visit_eq_meetAll, visitAll_eq_meetAll ts, visitAll_eq_meetAll es]
  | loop loc c body => simp [visit, steps, meetAll_append, c.visit_eq_meetAll, visitAll_eq_meetAll body]
  | ret loc value =>
    cases value with
    | none => simp [visit, steps, meetAll]
    | some e => rw [visit, steps, e.visit_eq_meetAll]
  | assign loc target e => rw [visit, steps, e.visit_eq_meetAll]
  | expr loc e => rw [visit, steps, e.visit_eq_meetAll]
  | malformed loc kind => simp [visit, steps, meetAll, meetSound, Expr.fault?]

theorem Stmt.visitAll_eq_meetAll (ss : List Stmt) : visitAll ss = meetAll (stepsAll ss) := by
  match ss with
  | [] => rfl
  | s :: ss => rw [visitAll, stepsAll, meetAll_append, s.visit_eq_meetAll, visitAll_eq_meetAll ss]

end

/-- A recursion through a program meets the expressions of its visit and fails with the fault of its visit. -/
theorem run_visitAll (program : List Stmt) : (Stmt.visitAll program).run.run [] =
    ((visit program).2.elim (.ok ()) .error, (visit program).1) := by
  rw [Stmt.visitAll_eq_meetAll, run_meetAll]
  rfl

/-! ### Counts of what is around -/

namespace ControlFlow

/-- How many functions are around a statement, and how many loops of the innermost of them. -/
structure Depths where
  functions : Nat
  loops : Nat

abbrev Walk := ExceptT Fault (StateM Depths)

/-- Walks with other counts and then puts the counts back, also when the walk fails. -/
def around (enter : Depths → Depths) (leave : Depths → Depths → Depths) (walk : Walk Unit) : Walk Unit :=
  ExceptT.mk do
    let saved ← get
    set (enter saved)
    let result ← walk.run
    modify (leave saved)
    return result

def require (p : Depths → Nat) (v : Violation) (loc : Location) : Walk Unit := do
  if p (← get) = 0 then throw (v.fault loc)

mutual

def walk : Stmt → Walk Unit
  | .declare _ => pure ()
  | .funDef _ _ _ body =>
    around (fun d => ⟨d.functions + 1, 0⟩) (fun saved d => ⟨d.functions - 1, saved.loops⟩) do
      checkExits body
      walkAll body
  | .branch _ condition thenBlock elseBlock => do
    condition.check
    checkExits thenBlock
    walkAll thenBlock
    checkExits elseBlock
    walkAll elseBlock
  | .loop _ _ body =>
    around (fun d => ⟨d.functions, d.loops + 1⟩) (fun _ d => ⟨d.functions, d.loops - 1⟩) do
      checkExits body
      walkAll body
  | .ret loc _ => require (·.functions) .outsideFunction loc
  | .brk loc => require (·.loops) (.outsideLoop .breakStmt) loc
  | .cont loc => require (·.loops) (.outsideLoop .continueStmt) loc
  | .assign _ _ value => value.check
  | .expr _ value => value.check
  | .malformed loc kind => throw (misshapen loc kind)

def walkAll : List Stmt → Walk Unit
  | [] => pure ()
  | s :: ss => do
    walk s
    walkAll ss

end

/-- A walk gives a result and leaves the counts as they were. -/
def Gives (w : Walk Unit) (d : Depths) (r : Except Fault Unit) : Prop := w.run.run d = (r, d)

variable {d : Depths} {r r' : Except Fault Unit} {w w' : Walk Unit}

theorem gives_lift (r : Except Fault Unit) : Gives (liftM r) d r := by
  cases r <;> rfl

theorem Gives.bind (h : Gives w d r) (h' : Gives w' d r') : Gives (w >>= fun _ => w') d (r >>= fun _ => r') := by
  unfold Gives
  rw [ExceptT.run_bind, StateT.run_bind, h]
  cases r with
  | error f => rfl
  | ok u => exact h'

theorem Gives.around {enter : Depths → Depths} {leave : Depths → Depths → Depths} (h : Gives w (enter d) r)
    (hd : leave d (enter d) = d) : Gives (around enter leave w) d r := by
  have hrun : (ControlFlow.around enter leave w).run.run d =
      ((w.run.run (enter d)).1, leave d (w.run.run (enter d)).2) := rfl
  rw [Gives, hrun, h, hd]

theorem gives_require (p : Depths → Nat) (v : Violation) (loc : Location) :
    Gives (require p v loc) d (if 0 < p d then .ok () else .error (v.fault loc)) := by
  change (if p d = 0 then throw (v.fault loc) else pure () : Walk Unit).run.run d = _
  by_cases h : p d = 0
  · rw [if_pos h, if_neg (by omega)]
    rfl
  · rw [if_neg h, if_pos (by omega)]
    rfl

mutual

theorem gives_walk (s : Stmt) (d : Depths) : Gives (walk s) d (checkStmt (0 < d.functions) (0 < d.loops) s) := by
  cases s with
  | declare decl =>
    rw [walk, checkStmt]
    exact gives_lift _
  | funDef loc name params body =>
    have hbody := (gives_lift (checkExits body)).bind (gives_walkAll body ⟨d.functions + 1, 0⟩)
    rw [walk, checkStmt]
    exact Gives.around hbody rfl
  | branch loc c ts es =>
    rw [walk, checkStmt]
    exact (gives_lift c.check).bind ((gives_lift (checkExits ts)).bind ((gives_walkAll ts d).bind
      ((gives_lift (checkExits es)).bind (gives_walkAll es d))))
  | loop loc c body =>
    have hbody := (gives_lift (checkExits body)).bind (gives_walkAll body ⟨d.functions, d.loops + 1⟩)
    rw [walk, checkStmt]
    exact Gives.around hbody rfl
  | ret loc value => simpa [walk, checkStmt] using gives_require (·.functions) .outsideFunction loc
  | brk loc => simpa [walk, checkStmt] using gives_require (·.loops) (.outsideLoop .breakStmt) loc
  | cont loc => simpa [walk, checkStmt] using gives_require (·.loops) (.outsideLoop .continueStmt) loc
  | assign loc target value =>
    rw [walk, checkStmt]
    exact gives_lift _
  | expr loc value =>
    rw [walk, checkStmt]
    exact gives_lift _
  | malformed loc kind =>
    rw [walk, checkStmt]
    exact gives_lift _

theorem gives_walkAll (ss : List Stmt) (d : Depths) :
    Gives (walkAll ss) d (checkAll (0 < d.functions) (0 < d.loops) ss) := by
  match ss with
  | [] =>
    rw [walkAll, checkAll]
    exact gives_lift _
  | s :: ss =>
    rw [walkAll, checkAll]
    exact (gives_walk s d).bind (gives_walkAll ss d)

end

/-- The check of a program finds what the walk with counts finds from outside of all functions and loops. -/
theorem gives_walkProgram (program : List Stmt) :
    Gives (do checkExits program; walkAll program) ⟨0, 0⟩ (check program) :=
  (gives_lift (checkExits program)).bind (gives_walkAll program ⟨0, 0⟩)

end ControlFlow

end LayerCheck
