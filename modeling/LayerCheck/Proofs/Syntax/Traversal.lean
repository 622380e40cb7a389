import Mathlib
import LayerCheck.Program.Visit
import LayerCheck.Proofs.Syntax.Shape
import LayerCheck.Proofs.Syntax.Statements

/-! Two ways through a parsed tree. A visit goes from statement to statement and from there into the expressions; a
walk over the nodes goes through the whole tree, each node before its children. On a parsed tree the visit meets the
nodes of expressions in the order of the walk. -/
namespace LayerCheck

namespace Tree

/-- A node of a tree with its place: the kind of the node above it, and its index among the children there. -/
structure Site where
  above : Option (NodeKind × Nat)
  kind : NodeKind
  loc : Location
  children : List Tree

namespace Site

def node (s : Site) : Tree := .node s.kind s.loc s.children

/-- The node read as an expression. -/
def view (s : Site) : Expr := Expr.ofNode s.kind s.loc s.children

/-- The place of the name that an assignment or a declaration is about. -/
def isTarget (s : Site) : Bool := s.above == some (.assign, 0) || s.above == some (.layer, 0)

def isExpression (s : Site) : Bool :=
  match s.kind with
  | .funCall | .binOp | .unaryOp | .num | .trueLit | .falseLit => true
  | .ident => !s.isTarget
  | _ => false

end Site

mutual

/-- The nodes of a tree at their places, each before its children. -/
def sites (above : Option (NodeKind × Nat)) : Tree → List Site
  | node kind loc children => ⟨above, kind, loc, children⟩ :: sitesAll kind 0 children
  | leaf .. => []

def sitesAll (kind : NodeKind) (i : Nat) : List Tree → List Site
  | [] => []
  | t :: ts => t.sites (some (kind, i)) ++ sitesAll kind (i + 1) ts

end

mutual

theorem map_node_sites (above : Option (NodeKind × Nat)) (t : Tree) : (t.sites above).map Site.node = t.nodes := by
  cases t with
  | node kind loc children => exact congrArg _ (map_node_sitesAll kind 0 children)
  | leaf => rfl

theorem map_node_sitesAll (kind : NodeKind) (i : Nat) (ts : List Tree) :
    (sitesAll kind i ts).map Site.node = nodesAll ts := by
  match ts with
  | [] => rfl
  | t :: ts =>
    rw [sitesAll, List.map_append, map_node_sites, map_node_sitesAll, nodesAll]

end

/-- The nodes of expressions in a tree, in the order of the walk; the names that assignments and declarations are
about are left out. -/
def expressions (t : Tree) : List Site := (t.sites none).filter Site.isExpression

/-! ### The visit of a well-shaped tree -/

/-- The expressions of a visit are those of some sites, which are well shaped. -/
def Agrees (steps : List Expr) (sites : List Site) : Prop :=
  steps = (sites.filter Site.isExpression).map Site.view ∧ ∀ s ∈ sites, s.isExpression → s.node.IsExpr

namespace Agrees

variable {steps steps' : List Expr} {ss ss' : List Site} {s : Site}

theorem nil : Agrees [] [] := ⟨rfl, fun s hs => (by cases hs)⟩

theorem append (h : Agrees steps ss) (h' : Agrees steps' ss') : Agrees (steps ++ steps') (ss ++ ss') := by
  obtain ⟨rfl, hs⟩ := h
  obtain ⟨rfl, hs'⟩ := h'
  exact ⟨by rw [List.filter_append, List.map_append], List.forall_mem_append.2 ⟨hs, hs'⟩⟩

theorem cons (he : s.isExpression = true) (hs : s.node.IsExpr) (h : Agrees steps ss) :
    Agrees (s.view :: steps) (s :: ss) := by
  obtain ⟨rfl, hss⟩ := h
  exact ⟨by rw [List.filter_cons_of_pos he, List.map_cons], List.forall_mem_cons.2 ⟨fun _ => hs, hss⟩⟩

theorem skip (he : s.isExpression = false) (h : Agrees steps ss) : Agrees steps (s :: ss) := by
  obtain ⟨rfl, hss⟩ := h
  refine ⟨by rw [List.filter_cons_of_neg (by simp [he])], List.forall_mem_cons.2 ⟨fun htrue => ?_, hss⟩⟩
  exact absurd (he.symm.trans htrue) Bool.false_ne_true

end Agrees

end Tree

theorem Expr.stepsAll_ofNodes_cons (t : Tree) (ts : List Tree) :
    stepsAll (ofNodes (t :: ts)) = stepsAll (ofNodes [t]) ++ stepsAll (ofNodes ts) := by
  cases t <;> simp [ofNodes, stepsAll]

@[simp] theorem Expr.stepsAll_ofNodes_node (kind : NodeKind) (loc : Location) (children : List Tree) :
    stepsAll (ofNodes [.node kind loc children]) = (ofNode kind loc children).steps := by
  simp [ofNodes, stepsAll]

theorem Stmt.stepsAll_ofNodes_cons (t : Tree) (ts : List Tree) :
    stepsAll (ofNodes (t :: ts)) = stepsAll (ofNodes [t]) ++ stepsAll (ofNodes ts) := by
  cases t <;> simp [ofNodes, stepsAll]

@[simp] theorem Stmt.stepsAll_ofNodes_node (kind : NodeKind) (loc : Location) (children : List Tree) :
    stepsAll (ofNodes [.node kind loc children]) = (ofNode kind loc children).steps := by
  simp [ofNodes, stepsAll]

namespace Tree

variable {kind : NodeKind} {loc : Location} {children : List Tree} {t : Tree}

/-- A visit meets an expression and then what it meets in its children. -/
theorem IsExpr.steps_ofNode (h : IsExpr (.node kind loc children)) :
    (Expr.ofNode kind loc children).steps =
      Expr.ofNode kind loc children :: Expr.stepsAll (Expr.ofNodes children) := by
  cases h with
  | num _ loc' digits =>
    simp only [Expr.ofNode, Expr.ofNodes, Expr.stepsAll]
    split <;> rfl
  | trueLit | falseLit | ident | call => simp [Expr.ofNode, Expr.ofNodes, Expr.steps, Expr.stepsAll]
  | binary hl hr =>
    obtain ⟨_, _, _, rfl⟩ := hl.exists_node
    obtain ⟨_, _, _, rfl⟩ := hr.exists_node
    simp [Expr.ofNode, Expr.ofNodes, Expr.steps, Expr.stepsAll]
  | unary op ho =>
    obtain ⟨_, _, _, rfl⟩ := ho.exists_node
    simp [Expr.ofNode, Expr.ofNodes, Expr.steps, Expr.stepsAll]

theorem IsExpr.isExpression {above : Option (NodeKind × Nat)} (h : IsExpr (.node kind loc children))
    (ht : (Site.mk above kind loc children).isTarget = false) :
    (Site.mk above kind loc children).isExpression = true := by
  cases h <;> simp_all [Site.isExpression]

/-- In an expression or a token that is no target, a visit agrees with the sites. -/
def Visits (t : Tree) : Prop :=
  ∀ above, above ≠ some (.assign, 0) → above ≠ some (.layer, 0) →
    Agrees (Expr.stepsAll (Expr.ofNodes [t])) (t.sites above)

theorem visits_leaf (kind : LeafKind) (loc : Location) (text : String) : (leaf kind loc text).Visits := by
  intro above _ _
  simpa only [Expr.ofNodes, Expr.stepsAll, sites] using Agrees.nil

theorem agrees_sitesAll (hk : kind ≠ .assign) (hk' : kind ≠ .layer) {ts : List Tree} (h : ∀ t ∈ ts, t.Visits)
    (i : Nat) : Agrees (Expr.stepsAll (Expr.ofNodes ts)) (sitesAll kind i ts) := by
  induction ts generalizing i with
  | nil => simpa only [Expr.ofNodes, Expr.stepsAll, sitesAll] using Agrees.nil
  | cons t ts ih =>
    rw [Expr.stepsAll_ofNodes_cons, sitesAll]
    have hfirst := h t List.mem_cons_self (some (kind, i)) (by simp [hk]) (by simp [hk'])
    exact hfirst.append (ih (fun t ht => h t (List.mem_cons_of_mem _ ht)) (i + 1))

theorem visits_node (h : IsExpr (.node kind loc children)) (hc : ∀ t ∈ children, t.Visits) :
    (node kind loc children).Visits := by
  intro above hassign hlayer
  have htarget : (Site.mk above kind loc children).isTarget = false := by simp [Site.isTarget, hassign, hlayer]
  have hkind : kind ≠ .assign ∧ kind ≠ .layer := by cases h <;> simp
  rw [Expr.stepsAll_ofNodes_node, h.steps_ofNode, sites]
  exact .cons (h.isExpression htarget) h (agrees_sitesAll hkind.1 hkind.2 hc 0)

theorem IsExpr.visits (h : t.IsExpr) : t.Visits := by
  induction h with
  | num loc loc' digits => exact visits_node (.num loc loc' digits) (List.forall_mem_singleton.2 (visits_leaf _ _ _))
  | trueLit loc => exact visits_node (.trueLit loc) fun t ht => (by cases ht)
  | falseLit loc => exact visits_node (.falseLit loc) fun t ht => (by cases ht)
  | ident loc name => exact visits_node (.ident loc name) (List.forall_mem_singleton.2 (visits_leaf _ _ _))
  | call hargs ih => exact visits_node (.call hargs) (List.forall_mem_cons.2 ⟨visits_leaf _ _ _, ih⟩)
  | binary hl hr ihl ihr =>
    refine visits_node (.binary hl hr) ?_
    simpa using ⟨ihl, visits_leaf _ _ _, ihr⟩
  | unary op ho ih =>
    refine visits_node (.unary op ho) ?_
    simpa using ⟨visits_leaf _ _ _, ih⟩

/-- In a statement, a visit agrees with the sites. -/
def VisitsStmt (t : Tree) : Prop := ∀ above, Agrees (Stmt.stepsAll (Stmt.ofNodes [t])) (t.sites above)

theorem agrees_block {body : List Tree} (h : ∀ s ∈ body, s.VisitsStmt) (i : Nat) :
    Agrees (Stmt.stepsAll (Stmt.ofNodes body)) (sitesAll kind i body) := by
  induction body generalizing i with
  | nil => simpa only [Stmt.ofNodes, Stmt.stepsAll, sitesAll] using Agrees.nil
  | cons s body ih =>
    rw [Stmt.stepsAll_ofNodes_cons, sitesAll]
    exact (h s List.mem_cons_self _).append (ih (fun s hs => h s (List.mem_cons_of_mem _ hs)) (i + 1))

/-- The parts of a function definition are its names and its body. -/
theorem exists_funParts {params : List Tree} (hp : ∀ p ∈ params, IsName p) (loc : Location) (body : List Tree) :
    ∃ names, Stmt.funParts (params ++ [.node .block loc body]) = some (names, Stmt.ofNodes body) := by
  induction params with
  | nil => exact ⟨[], by simp [Stmt.funParts]⟩
  | cons p params ih =>
    obtain ⟨loc', x, rfl⟩ := hp p List.mem_cons_self
    obtain ⟨names, hnames⟩ := ih fun p hp' => hp p (List.mem_cons_of_mem _ hp')
    exact ⟨x :: names, by simp [Stmt.funParts, hnames]⟩

theorem sitesAll_names {params : List Tree} (hp : ∀ p ∈ params, IsName p) (kind : NodeKind) (i : Nat) (t : Tree) :
    sitesAll kind i (params ++ [t]) = t.sites (some (kind, i + params.length)) := by
  induction params generalizing i with
  | nil => simp [sitesAll]
  | cons p params ih =>
    obtain ⟨loc', x, rfl⟩ := hp p List.mem_cons_self
    rw [List.cons_append, sitesAll, sites, ih fun p hp' => hp p (List.mem_cons_of_mem _ hp')]
    simp [Nat.add_comm, Nat.add_left_comm]

theorem agrees_site (h : IsExpr (.node kind loc children)) (kind' : NodeKind) (i : Nat)
    (hk : 0 < i ∨ kind' ≠ .assign ∧ kind' ≠ .layer) :
    Agrees (Expr.ofNode kind loc children).steps ((node kind loc children).sites (some (kind', i))) := by
  have hagrees := h.visits (some (kind', i)) (by grind) (by grind)
  rwa [Expr.stepsAll_ofNodes_node] at hagrees

theorem agrees_blockNode {body : List Tree} (h : ∀ s ∈ body, s.VisitsStmt) (loc : Location)
    (above : Option (NodeKind × Nat)) :
    Agrees (Stmt.stepsAll (Stmt.ofNodes body)) ((node .block loc body).sites above) := by
  rw [sites]
  exact .skip rfl (agrees_block h 0)

theorem visitsStmt_node (hk : ∀ above, (Site.mk above kind loc children).isExpression = false)
    (h : Agrees (Stmt.ofNode kind loc children).steps (sitesAll kind 0 children)) :
    (node kind loc children).VisitsStmt := by
  intro above
  rw [Stmt.stepsAll_ofNodes_node, sites]
  exact .skip (hk above) h

/-- A conditional is never malformed, so it stays whole behind an `else`. -/
theorem IsStmt.exists_branch (h : IsStmt (.node .ifStmt loc children)) :
    ∃ c body other, Stmt.ofNode .ifStmt loc children = .branch loc c body other := by
  cases h with
  | ifThen hc | ifElse hc | elseIf hc =>
    obtain ⟨_, _, _, rfl⟩ := hc.exists_node
    exact ⟨_, _, _, by rw [Stmt.ofNode]⟩

theorem IsStmt.visitsStmt (h : t.IsStmt) : t.VisitsStmt := by
  induction h with
  | declare loc loc₁ loc₂ loc₃ x layer text =>
    refine visitsStmt_node (fun _ => rfl) ?_
    have htarget : Agrees [] ((Parse.identNode x loc₁).sites (some (.layer, 0))) := .skip rfl .nil
    simpa [Stmt.ofNode, Declaration.ofChildren?, Parse.identNode, Stmt.steps, sitesAll, sites] using htarget
  | @funDef loc loc₁ loc₂ f params body hp hb ih =>
    refine visitsStmt_node (fun _ => rfl) ?_
    obtain ⟨names, hnames⟩ := exists_funParts hp loc₂ body
    have hbody := agrees_blockNode ih loc₂ (some (.funDef, 1 + params.length))
    rw [← sitesAll_names hp] at hbody
    simpa [Stmt.ofNode, Stmt.funParts, hnames, Stmt.steps, sitesAll, sites] using hbody
  | @ifThen loc loc₁ c body hc hb ih =>
    refine visitsStmt_node (fun _ => rfl) ?_
    obtain ⟨_, _, _, rfl⟩ := hc.exists_node
    have hcond := agrees_site hc .ifStmt 0 (by simp)
    have hbody := agrees_blockNode ih loc₁ (some (.ifStmt, 1))
    simpa [Stmt.ofNode, Stmt.steps, Stmt.stepsAll, sitesAll] using hcond.append hbody
  | @ifElse loc loc₁ loc₂ c body other hc hb ho ih ih' =>
    refine visitsStmt_node (fun _ => rfl) ?_
    obtain ⟨_, _, _, rfl⟩ := hc.exists_node
    have hcond := agrees_site hc .ifStmt 0 (by simp)
    have hbody := agrees_blockNode ih loc₁ (some (.ifStmt, 1))
    have hother := agrees_blockNode ih' loc₂ (some (.ifStmt, 2))
    simpa [Stmt.ofNode, Stmt.steps, sitesAll] using hcond.append (hbody.append hother)
  | @elseIf loc loc₁ loc₂ c body children hc hb hn ih ih' =>
    refine visitsStmt_node (fun _ => rfl) ?_
    obtain ⟨_, _, _, rfl⟩ := hc.exists_node
    obtain ⟨c', body', other, hbranch⟩ := hn.exists_branch
    have hcond := agrees_site hc .ifStmt 0 (by simp)
    have hbody := agrees_blockNode ih loc₁ (some (.ifStmt, 1))
    have hnested := ih' (some (.ifStmt, 2))
    rw [Stmt.stepsAll_ofNodes_node, hbranch] at hnested
    simpa [Stmt.ofNode, hbranch, Stmt.steps, Stmt.stepsAll, sitesAll] using hcond.append (hbody.append hnested)
  | @loop loc loc₁ c body hc hb ih =>
    refine visitsStmt_node (fun _ => rfl) ?_
    obtain ⟨_, _, _, rfl⟩ := hc.exists_node
    have hcond := agrees_site hc .whileStmt 0 (by simp)
    have hbody := agrees_blockNode ih loc₁ (some (.whileStmt, 1))
    simpa [Stmt.ofNode, Stmt.steps, sitesAll] using hcond.append hbody
  | retNone loc | brk loc | cont loc =>
    refine visitsStmt_node (fun _ => rfl) ?_
    simpa [Stmt.ofNode, Stmt.steps, sitesAll] using Agrees.nil
  | ret loc he =>
    refine visitsStmt_node (fun _ => rfl) ?_
    obtain ⟨_, _, _, rfl⟩ := he.exists_node
    simpa [Stmt.ofNode, Stmt.steps, sitesAll] using agrees_site he .returnStmt 0 (by simp)
  | assign loc loc₁ x he =>
    refine visitsStmt_node (fun _ => rfl) ?_
    obtain ⟨_, _, _, rfl⟩ := he.exists_node
    have htarget : Agrees [] ((Parse.identNode x loc₁).sites (some (.assign, 0))) := .skip rfl .nil
    have hvalue := agrees_site he .assign 1 (by simp)
    simpa [Stmt.ofNode, Parse.identNode, Stmt.steps, sitesAll] using htarget.append hvalue
  | expr loc he =>
    refine visitsStmt_node (fun _ => rfl) ?_
    obtain ⟨_, _, _, rfl⟩ := he.exists_node
    simpa [Stmt.ofNode, Stmt.steps, sitesAll] using agrees_site he .exprStmt 0 (by simp)

/-! ### The visit of a parsed tree -/

variable {source : String} {tree : Tree}

theorem agrees_of_parse (h : Tree.parse source = .ok tree) :
    Agrees (Stmt.stepsAll tree.statements) (tree.sites none) := by
  obtain ⟨ss, rfl, hss⟩ := Parse.exists_isStmt_of_program h
  rw [sites]
  exact .skip rfl (agrees_block (fun s hs => (hss s hs).visitsStmt) 0)

theorem mem_nodes_of_mem_expressions {s : Site} (h : s ∈ tree.expressions) : s.node ∈ tree.nodes := by
  rw [← map_node_sites none]
  exact List.mem_map_of_mem (List.mem_filter.1 h).1

/-- Only a literal that is too large makes a visit fail. -/
theorem fault?_view (h : Tree.parse source = .ok tree) {s : Site} (hs : s ∈ tree.expressions) :
    s.view.fault? = if s.node.fits then none else some (misshapen s.loc .num) := by
  have hnode := mem_nodes_of_mem_expressions hs
  have hshape := (agrees_of_parse h).2 s (List.mem_filter.1 hs).1 (List.mem_filter.1 hs).2
  obtain ⟨above, kind, loc, children⟩ := s
  change IsExpr (.node kind loc children) at hshape
  change (Expr.ofNode kind loc children).fault? = _
  cases hshape with
  | num _ loc' digits =>
    rw [← hasValue_eq_fits h hnode, Site.node, hasValue, Expr.ofNode]
    cases Decimal.int64? digits <;> rfl
  | trueLit | falseLit | ident | call => simp [Expr.ofNode, Expr.fault?, Site.node, fits]
  | binary hl hr =>
    obtain ⟨_, _, _, rfl⟩ := hl.exists_node
    obtain ⟨_, _, _, rfl⟩ := hr.exists_node
    simp [Expr.ofNode, Expr.fault?, Site.node, fits]
  | unary op ho =>
    obtain ⟨_, _, _, rfl⟩ := ho.exists_node
    simp [Expr.ofNode, Expr.fault?, Site.node, fits]

/-- A literal that is too large is one of the expressions. -/
theorem exists_expression_of_not_fits {n : Tree} (hn : n ∈ tree.nodes) (hfits : n.fits = false) :
    ∃ s ∈ tree.expressions, s.node = n := by
  rw [← map_node_sites none] at hn
  obtain ⟨s, hs, rfl⟩ := List.mem_map.1 hn
  refine ⟨s, List.mem_filter.2 ⟨hs, ?_⟩, rfl⟩
  obtain ⟨above, kind, loc, children⟩ := s
  unfold Site.node fits at hfits
  split at hfits
  next heq =>
    cases heq
    rfl
  next => cases hfits

theorem visit_of_fits (h : Tree.parse source = .ok tree) (hfits : ∀ s ∈ tree.expressions, s.node.fits) :
    visit tree.statements = (tree.expressions.map Site.view, none) := by
  have hfault : ∀ e ∈ tree.expressions.map Site.view, e.fault? = none := by
    intro e he
    obtain ⟨s, hs, rfl⟩ := List.mem_map.1 he
    rw [fault?_view h hs, if_pos (hfits s hs)]
  have hsteps : Stmt.stepsAll tree.statements = tree.expressions.map Site.view := (agrees_of_parse h).1
  rw [visit, hsteps]
  refine Prod.ext (List.takeWhile_eq_self_iff.2 fun e he => ?_) (List.findSome?_eq_none_iff.2 hfault)
  rw [hfault e he]
  rfl

theorem visit_of_not_fits (h : Tree.parse source = .ok tree) {before after : List Site} {s : Site}
    (heq : tree.expressions = before ++ s :: after) (hbefore : ∀ s' ∈ before, s'.node.fits)
    (hs : s.node.fits = false) :
    visit tree.statements = (before.map Site.view, some (misshapen s.loc .num)) := by
  have hfault : ∀ e ∈ before.map Site.view, e.fault? = none := by
    intro e he
    obtain ⟨s', hs', rfl⟩ := List.mem_map.1 he
    rw [fault?_view h (heq ▸ List.mem_append_left _ hs'), if_pos (hbefore s' hs')]
  have hlast : s.view.fault? = some (misshapen s.loc .num) := by
    rw [fault?_view h (heq ▸ List.mem_append_right _ List.mem_cons_self), hs]
    rfl
  have hsteps : Stmt.stepsAll tree.statements = tree.expressions.map Site.view := (agrees_of_parse h).1
  have hkeep : ∀ e ∈ before.map Site.view, e.fault?.isNone = true := fun e he => by rw [hfault e he]; rfl
  rw [visit, hsteps, heq, List.map_append, List.map_cons]
  refine Prod.ext ?_ ?_
  · dsimp only
    rw [List.takeWhile_append_of_pos hkeep, List.takeWhile_cons_of_neg (by simp [hlast]), List.append_nil]
  · dsimp only
    rw [List.findSome?_append, List.findSome?_eq_none_iff.2 hfault, Option.none_or, List.findSome?_cons, hlast]

/-- A visit of a parsed tree meets the nodes of its expressions in the order of the walk over all nodes, up to the
first integer literal that is too large. There it fails. -/
theorem visit_in_walk_order (h : Tree.parse source = .ok tree) :
    (tree.sites none).map Site.node = tree.nodes ∧
      ((∀ n ∈ tree.nodes, n.fits) → visit tree.statements = (tree.expressions.map Site.view, none)) ∧
      ((∃ n ∈ tree.nodes, n.fits = false) → ∃ before s after, tree.expressions = before ++ s :: after ∧
        (∀ s' ∈ before, s'.node.fits) ∧ s.node.fits = false ∧
        visit tree.statements = (before.map Site.view, some (misshapen s.loc .num))) := by
  refine ⟨map_node_sites none tree, fun hfits => ?_, fun hlarge => ?_⟩
  · exact visit_of_fits h fun s hs => hfits s.node (mem_nodes_of_mem_expressions hs)
  · obtain ⟨n, hn, hfits⟩ := hlarge
    obtain ⟨s, hs, rfl⟩ := exists_expression_of_not_fits hn hfits
    obtain ⟨first, hfirst⟩ := Option.isSome_iff_exists.1
      (List.find?_isSome.2 ⟨s, hs, by simp [hfits]⟩ : (tree.expressions.find? (!·.node.fits)).isSome)
    obtain ⟨hlast, before, after, heq, hbefore⟩ := List.find?_eq_some_iff_append.1 hfirst
    have hlast : first.node.fits = false := by simpa using hlast
    have hbefore : ∀ s' ∈ before, s'.node.fits := fun s' hs' => by simpa using hbefore s' hs'
    exact ⟨before, first, after, heq, hbefore, hlast, visit_of_not_fits h heq hbefore hlast⟩

end Tree

/-- A declaration, a conditional with two more branches, and the kinds of expressions that nest. -/
def branchedText : String := "a : t : Int\nif a \x7b b = -a \x7d else if !b \x7b f(a, 1) \x7d else \x7b return \x7d\n"

/-- Two literals that are too large, after one that is not. -/
def oversizeText : String := "b = 1 + 9223372036854775808 * f(9223372036854775808)\n"

theorem walk_branchedText :
    (Tree.parse branchedText).toOption.map (fun t => (t.nodes.all Tree.fits, t.expressions.map (·.loc.col))) =
      some (true, [4, 12, 13, 25, 26, 30, 32, 35]) := by
  cbv

theorem walk_oversizeText :
    (Tree.parse oversizeText).toOption.map (fun t => (t.nodes.all Tree.fits, t.expressions.map (·.loc.col))) =
      some (false, [5, 5, 9, 9, 31, 33]) := by
  cbv

/-- The whole of the one text is visited, and the other up to the first literal that is too large. -/
theorem visits_of_texts :
    (∃ tree, Tree.parse branchedText = .ok tree ∧ (∀ n ∈ tree.nodes, n.fits) ∧ tree.expressions.length = 8 ∧
      visit tree.statements = (tree.expressions.map Tree.Site.view, none)) ∧
    ∃ tree, Tree.parse oversizeText = .ok tree ∧ tree.expressions.length = 6 ∧ ∃ before s after,
      tree.expressions = before ++ s :: after ∧ s.node.fits = false ∧
        visit tree.statements = (before.map Tree.Site.view, some (misshapen s.loc .num)) := by
  constructor
  · obtain ⟨tree, hparse, hwalk⟩ := Tree.exists_parse walk_branchedText
    obtain ⟨hfits, hplaces⟩ := Prod.ext_iff.1 hwalk
    have hfits : ∀ n ∈ tree.nodes, n.fits := List.all_eq_true.1 hfits
    have hlength : tree.expressions.length = 8 := by simpa using congrArg List.length hplaces
    exact ⟨tree, hparse, hfits, hlength, (Tree.visit_in_walk_order hparse).2.1 hfits⟩
  · obtain ⟨tree, hparse, hwalk⟩ := Tree.exists_parse walk_oversizeText
    obtain ⟨hfits, hplaces⟩ := Prod.ext_iff.1 hwalk
    have hlarge : ∃ n ∈ tree.nodes, n.fits = false := by simpa using List.all_eq_false.1 hfits
    have hlength : tree.expressions.length = 6 := by simpa using congrArg List.length hplaces
    obtain ⟨before, s, after, heq, -, hs, hvisit⟩ := (Tree.visit_in_walk_order hparse).2.2 hlarge
    exact ⟨tree, hparse, hlength, before, s, after, heq, hs, hvisit⟩

end LayerCheck
