import Mathlib
import LayerCheck.Program.ControlFlow
import LayerCheck.Proofs.Syntax.Traversal

/-! Where exits may stand. A `return` needs a function around it, a `break` or `continue` a loop around it in the same
function, and nothing may follow one of them in its block. The check of control flow carries two flags through a
program instead of looking at what is around a statement; on a parsed tree it accepts exactly the programs in which
every node is allowed at its place. -/
namespace LayerCheck

namespace Tree

/-- In the tree `t` stands `n`, below nodes of the kinds `above`, the nearest first. -/
inductive Under (t : Tree) : List NodeKind → Tree → Prop
  | root : Under t [] t
  | child {above : List NodeKind} {kind : NodeKind} {loc : Location} {children : List Tree} {n : Tree}
      (h : Under t above (.node kind loc children)) (hn : n ∈ children) : Under t (kind :: above) n

def isExit : Tree → Bool
  | node kind _ _ => kind.isExit
  | leaf .. => false

variable {kind : NodeKind} {loc : Location} {children : List Tree} {above : List NodeKind} {t c n : Tree}

theorem Under.behind (h : c.Under above n) (hc : c ∈ children) :
    (node kind loc children).Under (above ++ [kind]) n := by
  induction h with
  | root => exact .child .root hc
  | child _ hn ih => exact .child ih hn

theorem under_node : (node kind loc children).Under above n ↔
    above = [] ∧ n = node kind loc children ∨
      ∃ c ∈ children, ∃ inner, c.Under inner n ∧ above = inner ++ [kind] := by
  constructor
  · intro h
    induction h with
    | root => exact .inl ⟨rfl, rfl⟩
    | @child above kind' loc' children' n h hn ih =>
      rcases ih with ⟨rfl, heq⟩ | ⟨c, hc, inner, hin, rfl⟩
      · cases heq
        exact .inr ⟨n, hn, [], .root, rfl⟩
      · exact .inr ⟨c, hc, kind' :: inner, .child hin hn, rfl⟩
  · rintro (⟨rfl, rfl⟩ | ⟨c, hc, inner, hin, rfl⟩)
    · exact .root
    · exact hin.behind hc

theorem under_leaf {k : LeafKind} {text : String} (h : (leaf k loc text).Under above n) : n = leaf k loc text := by
  induction h with
  | root => rfl
  | child _ _ ih => cases ih

end Tree

namespace ControlFlow

/-! ### Places -/

/-- Among the nodes above is a loop, with no function definition between. -/
def InLoop (above : List NodeKind) : Prop :=
  ∃ inner outer, above = inner ++ .whileStmt :: outer ∧ .funDef ∉ inner

/-- No statement comes after an exit. -/
def ExitsLast (children : List Tree) : Prop := children.Pairwise fun s s' => s.isExit = true → s'.isNode = false

/-- What a node of some kind with some children asks of the nodes above it. -/
def Allowed (above : List NodeKind) (kind : NodeKind) (children : List Tree) : Prop :=
  match kind with
  | .returnStmt => .funDef ∈ above
  | .breakStmt | .continueStmt => InLoop above
  | .program | .block => ExitsLast children
  | _ => True

/-- Every node of a tree that stands below `outer` is allowed at its place. -/
def PlacedUnder (outer : List NodeKind) (t : Tree) : Prop :=
  ∀ above kind loc children, t.Under above (.node kind loc children) → Allowed (above ++ outer) kind children

/-- Every node of a tree is allowed at its place. -/
def WellPlaced (t : Tree) : Prop :=
  ∀ above kind loc children, t.Under above (.node kind loc children) → Allowed above kind children

variable {outer : List NodeKind} {kind : NodeKind} {loc : Location} {children : List Tree} {t : Tree}

theorem wellPlaced_iff : WellPlaced t ↔ PlacedUnder [] t := by
  simp only [WellPlaced, PlacedUnder, List.append_nil]

theorem inLoop_cons : InLoop (kind :: outer) ↔ kind = .whileStmt ∨ kind ≠ .funDef ∧ InLoop outer := by
  constructor
  · rintro ⟨inner, rest, heq, hfun⟩
    obtain _ | ⟨k, inner⟩ := inner
    · cases heq
      exact .inl rfl
    · cases heq
      rw [List.mem_cons, not_or] at hfun
      exact .inr ⟨Ne.symm hfun.1, inner, rest, rfl, hfun.2⟩
  · rintro (rfl | ⟨hkind, inner, rest, rfl, hfun⟩)
    · exact ⟨[], outer, rfl, List.not_mem_nil⟩
    · exact ⟨kind :: inner, rest, rfl, by simp [hkind.symm, hfun]⟩

theorem not_inLoop_nil : ¬ InLoop [] := by
  rintro ⟨inner, rest, heq, -⟩
  simp at heq

theorem placedUnder_leaf (k : LeafKind) (text : String) : PlacedUnder outer (.leaf k loc text) := by
  intro above kind loc children h
  cases Tree.under_leaf h

/-- A node and its children are placed when the node is allowed and the children are placed below it. -/
theorem placedUnder_node : PlacedUnder outer (.node kind loc children) ↔
    Allowed outer kind children ∧ ∀ c ∈ children, PlacedUnder (kind :: outer) c := by
  constructor
  · intro h
    refine ⟨h [] kind loc children .root, fun c hc above kind' loc' children' hn => ?_⟩
    have hplaced := h (above ++ [kind]) kind' loc' children' (hn.behind hc)
    rwa [List.append_assoc] at hplaced
  · rintro ⟨hallowed, hchildren⟩ above kind' loc' children' h
    rcases Tree.under_node.1 h with ⟨rfl, heq⟩ | ⟨c, hc, inner, hin, rfl⟩
    · cases heq
      exact hallowed
    · rw [List.append_assoc]
      exact hchildren c hc inner kind' loc' children' hin

theorem placedUnder_of_isExpr (h : t.IsExpr) (outer : List NodeKind) : PlacedUnder outer t := by
  induction h generalizing outer with
  | num | ident =>
    exact placedUnder_node.2 ⟨trivial, List.forall_mem_singleton.2 (placedUnder_leaf _ _)⟩
  | trueLit | falseLit => exact placedUnder_node.2 ⟨trivial, fun c hc => (by cases hc)⟩
  | call hargs ih =>
    exact placedUnder_node.2 ⟨trivial, List.forall_mem_cons.2 ⟨placedUnder_leaf _ _, fun a ha => ih a ha _⟩⟩
  | binary hl hr ihl ihr =>
    refine placedUnder_node.2 ⟨trivial, ?_⟩
    simpa using ⟨ihl _, placedUnder_leaf _ _, ihr _⟩
  | unary op ho ih =>
    refine placedUnder_node.2 ⟨trivial, ?_⟩
    simpa using ⟨placedUnder_leaf _ _, ih _⟩

/-! ### Checks that decide a property -/

/-- A check passes where a property holds, and elsewhere it fails with a violation. -/
def Decides (r : Except Fault Unit) (p : Prop) : Prop :=
  r = .ok () ∧ p ∨ (∃ (v : Violation) (loc : Location), r = .error (v.fault loc)) ∧ ¬ p

namespace Decides

variable {r r' : Except Fault Unit} {p q : Prop}

theorem congr (h : Decides r p) (hpq : p ↔ q) : Decides r q := by
  rwa [Decides, ← hpq]

theorem ok (hp : p) : Decides (.ok ()) p := .inl ⟨rfl, hp⟩

theorem ofFlag {flag : Bool} (v : Violation) (loc : Location) (h : flag = true ↔ p) :
    Decides (if flag then .ok () else .error (v.fault loc)) p := by
  cases flag with
  | true => exact .ok (h.1 rfl)
  | false => exact .inr ⟨⟨v, loc, rfl⟩, fun hp => Bool.false_ne_true (h.2 hp)⟩

theorem bind (h : Decides r p) (h' : Decides r' q) : Decides (r >>= fun _ => r') (p ∧ q) := by
  rcases h with ⟨rfl, hp⟩ | ⟨⟨v, loc, rfl⟩, hp⟩
  · rcases h' with ⟨rfl, hq⟩ | ⟨hr, hq⟩
    · exact .inl ⟨rfl, hp, hq⟩
    · exact .inr ⟨hr, fun h => hq h.2⟩
  · exact .inr ⟨⟨v, loc, rfl⟩, fun h => hp h.1⟩

end Decides

/-! ### Exits in a block -/

theorem kind_ofNode (kind : NodeKind) (loc : Location) (children : List Tree) :
    (Stmt.ofNode kind loc children).kind = kind := by
  fun_cases Stmt.ofNode kind loc children <;> rfl

theorem ofNodes_eq_nil {ts : List Tree} : Stmt.ofNodes ts = [] ↔ ∀ t ∈ ts, t.isNode = false := by
  induction ts with
  | nil => simp [Stmt.ofNodes]
  | cons t ts ih => cases t <;> simp [Stmt.ofNodes, Tree.isNode, ih]

theorem exitsLast_cons {ts : List Tree} :
    ExitsLast (t :: ts) ↔ (t.isExit = true → Stmt.ofNodes ts = []) ∧ ExitsLast ts := by
  rw [ExitsLast, List.pairwise_cons, ofNodes_eq_nil]
  exact and_congr_left fun _ => ⟨fun h hexit t' ht' => h t' ht' hexit, fun h t' ht' hexit => h hexit t' ht'⟩

theorem decides_checkExits (ts : List Tree) : Decides (checkExits (Stmt.ofNodes ts)) (ExitsLast ts) := by
  induction ts with
  | nil =>
    rw [Stmt.ofNodes]
    exact .ok .nil
  | cons t ts ih =>
    cases t with
    | leaf k loc text =>
      rw [Stmt.ofNodes]
      exact ih.congr (by simp [exitsLast_cons, Tree.isExit])
    | node kind loc children =>
      rw [Stmt.ofNodes]
      cases hrest : Stmt.ofNodes ts with
      | nil =>
        rw [hrest] at ih
        exact ih.congr (by simp [exitsLast_cons, hrest])
      | cons s rest =>
        rw [checkExits, kind_ofNode, ← hrest]
        cases hexit : kind.isExit with
        | true => exact .inr ⟨⟨_, _, rfl⟩, fun h => by simp [exitsLast_cons, Tree.isExit, hexit, hrest] at h⟩
        | false => exact ih.congr (by simp [exitsLast_cons, Tree.isExit, hexit])

/-! ### The flags -/

/-- The flags of the check tell what is above a statement. -/
structure Tells (inFunction inLoop : Bool) (above : List NodeKind) : Prop where
  function : inFunction = true ↔ .funDef ∈ above
  loop : inLoop = true ↔ InLoop above

namespace Tells

variable {inFunction inLoop : Bool}

theorem start : Tells false false [.program] where
  function := by decide
  loop := by simp [inLoop_cons, not_inLoop_nil]

theorem enterFunction (outer : List NodeKind) : Tells true false (.funDef :: outer) where
  function := by simp
  loop := by simp [inLoop_cons]

theorem enterLoop (h : Tells inFunction inLoop outer) : Tells inFunction true (.whileStmt :: outer) where
  function := by simp [h.function]
  loop := by simp [inLoop_cons]

/-- Only functions and loops change the flags. -/
theorem enter (h : Tells inFunction inLoop outer) (hkind : kind ≠ .funDef ∧ kind ≠ .whileStmt) :
    Tells inFunction inLoop (kind :: outer) where
  function := by simp [h.function, hkind.1.symm]
  loop := by simp [inLoop_cons, h.loop, hkind]

end Tells

/-! ### Statements -/

/-- No expression in some statements is malformed. -/
def Faultless (ss : List Stmt) : Prop := ∀ e ∈ Stmt.stepsAll ss, e.fault? = none

theorem check_eq_ok {e : Expr} (h : ∀ e' ∈ e.steps, e'.fault? = none) : e.check = .ok () := by
  rw [Expr.check, List.findSome?_eq_none_iff.2 h]

/-- The check of a statement with the flags of its place decides whether it is placed there. -/
def Checked (t : Tree) : Prop :=
  ∀ inFunction inLoop outer, Tells inFunction inLoop outer → Faultless (Stmt.ofNodes [t]) →
    Decides (checkAll inFunction inLoop (Stmt.ofNodes [t])) (PlacedUnder outer t)

variable {inFunction inLoop : Bool}

theorem checkAll_singleton (s : Stmt) : checkAll inFunction inLoop [s] = checkStmt inFunction inLoop s := by
  rw [checkAll, checkAll]
  cases checkStmt inFunction inLoop s <;> rfl

theorem checked_node (h : ∀ inFunction inLoop outer, Tells inFunction inLoop outer →
      Faultless [Stmt.ofNode kind loc children] →
      Decides (checkStmt inFunction inLoop (Stmt.ofNode kind loc children))
        (Allowed outer kind children ∧ ∀ c ∈ children, PlacedUnder (kind :: outer) c)) :
    Checked (.node kind loc children) := by
  intro inFunction inLoop outer ht hf
  simp only [Stmt.ofNodes] at hf ⊢
  rw [checkAll_singleton]
  exact (h inFunction inLoop outer ht hf).congr placedUnder_node.symm

theorem decides_checkAll {body : List Tree} (h : ∀ s ∈ body, Checked s) (ht : Tells inFunction inLoop outer)
    (hf : Faultless (Stmt.ofNodes body)) :
    Decides (checkAll inFunction inLoop (Stmt.ofNodes body)) (∀ s ∈ body, PlacedUnder outer s) := by
  induction body with
  | nil =>
    rw [Stmt.ofNodes, checkAll]
    exact .ok fun s hs => (by cases hs)
  | cons s body ih =>
    rw [Faultless, Stmt.stepsAll_ofNodes_cons, List.forall_mem_append] at hf
    have hfirst := h s List.mem_cons_self inFunction inLoop outer ht hf.1
    have hrest := ih (fun s hs => h s (List.mem_cons_of_mem _ hs)) hf.2
    rw [List.forall_mem_cons]
    cases s with
    | leaf k loc text =>
      rw [Stmt.ofNodes]
      exact hrest.congr (and_iff_right (placedUnder_leaf k text)).symm
    | node kind loc children =>
      simp only [Stmt.ofNodes, checkAll_singleton] at hfirst
      rw [Stmt.ofNodes, checkAll]
      exact hfirst.bind hrest

theorem decides_block {body : List Tree} (hkind : kind = .program ∨ kind = .block) (h : ∀ s ∈ body, Checked s)
    (ht : Tells inFunction inLoop (kind :: outer)) (hf : Faultless (Stmt.ofNodes body)) (loc : Location) :
    Decides (checkExits (Stmt.ofNodes body) >>= fun _ => checkAll inFunction inLoop (Stmt.ofNodes body))
      (PlacedUnder outer (.node kind loc body)) := by
  have hallowed : Allowed outer kind body ↔ ExitsLast body := by rcases hkind with rfl | rfl <;> rfl
  refine ((decides_checkExits body).bind (decides_checkAll h ht hf)).congr ?_
  rw [placedUnder_node, hallowed]

section Faultless

variable {e : Expr} {name : String} {params : List String} {ss ts es : List Stmt}

theorem faultless_funDef : Faultless [.funDef loc name params ss] ↔ Faultless ss := by
  simp [Faultless, Stmt.stepsAll, Stmt.steps]

theorem faultless_branch :
    Faultless [.branch loc e ts es] ↔ (∀ e' ∈ e.steps, e'.fault? = none) ∧ Faultless ts ∧ Faultless es := by
  simp [Faultless, Stmt.stepsAll, Stmt.steps, or_imp, forall_and]

theorem faultless_loop : Faultless [.loop loc e ss] ↔ (∀ e' ∈ e.steps, e'.fault? = none) ∧ Faultless ss := by
  simp [Faultless, Stmt.stepsAll, Stmt.steps, or_imp, forall_and]

theorem faultless_assign : Faultless [.assign loc name e] ↔ ∀ e' ∈ e.steps, e'.fault? = none := by
  simp [Faultless, Stmt.stepsAll, Stmt.steps]

theorem faultless_expr : Faultless [.expr loc e] ↔ ∀ e' ∈ e.steps, e'.fault? = none := by
  simp [Faultless, Stmt.stepsAll, Stmt.steps]

end Faultless

/-- A well-shaped expression without faults passes, as it is placed anywhere. -/
theorem decides_check (h : Tree.IsExpr (.node kind loc children))
    (hf : ∀ e ∈ (Expr.ofNode kind loc children).steps, e.fault? = none) (outer : List NodeKind) :
    Decides (Expr.ofNode kind loc children).check (PlacedUnder outer (.node kind loc children)) := by
  rw [check_eq_ok hf]
  exact .ok (placedUnder_of_isExpr h outer)

theorem checked_funDef {params body : List Tree} {loc₁ loc₂ : Location} {f : String}
    (hp : ∀ p ∈ params, Tree.IsName p) (h : ∀ s ∈ body, Checked s) :
    Checked (.node .funDef loc (.leaf .name loc₁ f :: params ++ [.node .block loc₂ body])) := by
  refine checked_node fun inFunction inLoop outer _ hf => ?_
  obtain ⟨names, hnames⟩ := Tree.exists_funParts hp loc₂ body
  have hstmt : Stmt.ofNode .funDef loc (.leaf .name loc₁ f :: params ++ [.node .block loc₂ body]) =
      .funDef loc f names (Stmt.ofNodes body) := by simp [Stmt.ofNode, Stmt.funParts, hnames]
  have hparams : ∀ p ∈ params, PlacedUnder (.funDef :: outer) p := by
    intro p hmem
    obtain ⟨loc', x, rfl⟩ := hp p hmem
    exact placedUnder_leaf .name x
  rw [hstmt, faultless_funDef] at hf
  rw [hstmt, checkStmt]
  refine (decides_block (.inr rfl) h ((Tells.enterFunction outer).enter (by decide)) hf loc₂).congr ?_
  rw [List.cons_append, List.forall_mem_cons, List.forall_mem_append, List.forall_mem_singleton]
  exact ⟨fun hblock => ⟨trivial, placedUnder_leaf .name f, hparams, hblock⟩, fun hall => hall.2.2.2⟩

theorem checkStmt_branch (loc : Location) (c : Expr) (ts es : List Stmt) :
    checkStmt inFunction inLoop (.branch loc c ts es) =
      c.check >>= fun _ => (checkExits ts >>= fun _ => checkAll inFunction inLoop ts) >>= fun _ =>
        checkExits es >>= fun _ => checkAll inFunction inLoop es := by
  rw [checkStmt]
  simp only [bind_assoc]

/-- The three parts of a conditional are checked one after the other. -/
theorem decides_branch {body : List Tree} {elseBlock : List Stmt} {p : Prop} {loc' : Location}
    (hc : Tree.IsExpr (.node kind loc children)) (h : ∀ s ∈ body, Checked s)
    (ht : Tells inFunction inLoop (.ifStmt :: outer))
    (hf : Faultless [.branch loc' (Expr.ofNode kind loc children) (Stmt.ofNodes body) elseBlock])
    (helse : Faultless elseBlock →
      Decides (checkExits elseBlock >>= fun _ => checkAll inFunction inLoop elseBlock) p) (loc₁ : Location) :
    Decides (checkStmt inFunction inLoop
        (.branch loc' (Expr.ofNode kind loc children) (Stmt.ofNodes body) elseBlock))
      (PlacedUnder (.ifStmt :: outer) (.node kind loc children) ∧
        PlacedUnder (.ifStmt :: outer) (.node .block loc₁ body) ∧ p) := by
  obtain ⟨hcond, hthen, hother⟩ := faultless_branch.1 hf
  rw [checkStmt_branch]
  exact (decides_check hc hcond _).bind
    ((decides_block (.inr rfl) h (ht.enter (by decide)) hthen loc₁).bind (helse hother))

theorem checked_of_isStmt (h : t.IsStmt) : Checked t := by
  induction h with
  | declare loc loc₁ loc₂ loc₃ x layer text =>
    refine checked_node fun inFunction inLoop outer _ _ => ?_
    have htarget := placedUnder_of_isExpr (.ident loc₁ x) (.layer :: outer)
    simpa [Stmt.ofNode, Declaration.ofChildren?, Parse.identNode, checkStmt, Allowed, placedUnder_leaf] using
      Decides.ok htarget
  | funDef hp _ ih => exact checked_funDef hp ih
  | @ifThen _ loc₁ _ _ hc _ ih =>
    refine checked_node fun inFunction inLoop outer ht hf => ?_
    obtain ⟨_, _, _, rfl⟩ := hc.exists_node
    rw [Stmt.ofNode] at hf ⊢
    refine (decides_branch hc ih (ht.enter (by decide)) hf (fun _ => .ok trivial) loc₁).congr ?_
    simp [Allowed]
  | @ifElse _ loc₁ loc₂ _ _ _ hc _ _ ih ih' =>
    refine checked_node fun inFunction inLoop outer ht hf => ?_
    obtain ⟨_, _, _, rfl⟩ := hc.exists_node
    have hin : Tells inFunction inLoop (.ifStmt :: outer) := ht.enter (by decide)
    simp only [Stmt.ofNode, reduceCtorEq, if_false] at hf ⊢
    refine (decides_branch hc ih hin hf
      (fun hother => decides_block (.inr rfl) ih' (hin.enter (by decide)) hother loc₂) loc₁).congr ?_
    simp [Allowed]
  | @elseIf _ loc₁ loc₂ _ _ children hc _ hn ih ih' =>
    refine checked_node fun inFunction inLoop outer ht hf => ?_
    obtain ⟨_, _, _, rfl⟩ := hc.exists_node
    obtain ⟨c', body', other, hbranch⟩ := hn.exists_branch
    have hin : Tells inFunction inLoop (.ifStmt :: outer) := ht.enter (by decide)
    -- The nested conditional stands in the place of a block, but is no block: it is checked as a statement by itself.
    have hnested := ih' inFunction inLoop (.ifStmt :: outer) hin
    simp only [Stmt.ofNodes, hbranch] at hnested
    simp only [Stmt.ofNode, hbranch, if_true] at hf ⊢
    refine (decides_branch hc ih hin hf hnested loc₁).congr ?_
    simp [Allowed]
  | @loop _ loc₁ _ _ hc _ ih =>
    refine checked_node fun inFunction inLoop outer ht hf => ?_
    obtain ⟨_, _, _, rfl⟩ := hc.exists_node
    rw [Stmt.ofNode] at hf ⊢
    rw [checkStmt]
    refine (decides_block (.inr rfl) ih (ht.enterLoop.enter (by decide)) (faultless_loop.1 hf).2 loc₁).congr ?_
    simp [Allowed, placedUnder_of_isExpr hc]
  | retNone loc =>
    refine checked_node fun inFunction inLoop outer ht _ => ?_
    simpa [Stmt.ofNode, checkStmt, Allowed] using Decides.ofFlag .outsideFunction loc ht.function
  | ret loc he =>
    refine checked_node fun inFunction inLoop outer ht _ => ?_
    obtain ⟨_, _, _, rfl⟩ := he.exists_node
    have hvalue := placedUnder_of_isExpr he (.returnStmt :: outer)
    simpa [Stmt.ofNode, checkStmt, Allowed, hvalue] using Decides.ofFlag .outsideFunction loc ht.function
  | brk loc =>
    refine checked_node fun inFunction inLoop outer ht _ => ?_
    simpa [Stmt.ofNode, checkStmt, Allowed] using Decides.ofFlag (.outsideLoop .breakStmt) loc ht.loop
  | cont loc =>
    refine checked_node fun inFunction inLoop outer ht _ => ?_
    simpa [Stmt.ofNode, checkStmt, Allowed] using Decides.ofFlag (.outsideLoop .continueStmt) loc ht.loop
  | assign loc loc₁ x he =>
    refine checked_node fun inFunction inLoop outer _ hf => ?_
    obtain ⟨_, _, _, rfl⟩ := he.exists_node
    have htarget := placedUnder_of_isExpr (.ident loc₁ x) (.assign :: outer)
    simp only [Parse.identNode, Stmt.ofNode, faultless_assign] at hf htarget ⊢
    rw [checkStmt]
    refine (decides_check he hf (.assign :: outer)).congr ?_
    simp [Allowed, htarget]
  | expr loc he =>
    refine checked_node fun inFunction inLoop outer _ hf => ?_
    obtain ⟨_, _, _, rfl⟩ := he.exists_node
    simp only [Stmt.ofNode, faultless_expr] at hf ⊢
    rw [checkStmt]
    refine (decides_check he hf (.exprStmt :: outer)).congr ?_
    simp [Allowed]

/-! ### Programs -/

variable {source : String} {tree : Tree}

theorem faultless_of_parse (h : Tree.parse source = .ok tree) (hfits : ∀ n ∈ tree.nodes, n.fits = true) :
    Faultless tree.statements := by
  have hvisit := Tree.visit_of_fits h fun s hs => hfits s.node (Tree.mem_nodes_of_mem_expressions hs)
  exact List.findSome?_eq_none_iff.1 (Prod.ext_iff.1 hvisit).2

theorem decides_check_of_parse (h : Tree.parse source = .ok tree) (hfits : ∀ n ∈ tree.nodes, n.fits = true) :
    Decides (check tree.statements) (WellPlaced tree) := by
  have hf := faultless_of_parse h hfits
  obtain ⟨ss, rfl, hss⟩ := Parse.exists_isStmt_of_program h
  have hblock := decides_block (.inl rfl) (fun s hs => checked_of_isStmt (hss s hs)) Tells.start hf ⟨1, 1⟩
  exact hblock.congr wellPlaced_iff.symm

/-- The check of control flow accepts exactly the programs in which every `return` has a function above it, every
`break` and `continue` a loop with no function between, and nothing follows an exit in its block. It rejects the others
with a control flow error. -/
theorem check_eq_ok_iff_wellPlaced (h : Tree.parse source = .ok tree) (hfits : ∀ n ∈ tree.nodes, n.fits = true) :
    (check tree.statements = .ok () ↔ WellPlaced tree) ∧
      (¬ WellPlaced tree → ∃ message loc, check tree.statements = .error (.located (.controlFlow message) loc)) := by
  rcases decides_check_of_parse h hfits with ⟨hok, hplaced⟩ | ⟨⟨v, loc, herror⟩, hplaced⟩
  · exact ⟨iff_of_true hok hplaced, fun hnot => absurd hplaced hnot⟩
  · refine ⟨iff_of_false (fun hok => ?_) hplaced, fun _ => ⟨v.message, loc, herror⟩⟩
    cases hok.symm.trans herror

/-- A loop with three branches in a function, of which each ends in an exit. -/
def orderlyText : String :=
  "def f(a) \x7b while a \x7b\n if a \x7b break \x7d else if b \x7b continue \x7d " ++
    "else \x7b return a \x7d\n a = 1 \x7d \x7d"

/-- The loop is around the function, not in it. -/
def strayText : String := "while b \x7b def g() \x7b continue \x7d \x7d"

theorem check_orderlyText : (Tree.parse orderlyText).toOption.map
    (fun t => (t.nodes.all Tree.fits, check t.statements)) = some (true, .ok ()) := by
  cbv

theorem statements_strayText : (Tree.parse strayText).toOption.map
    (fun t => (t.nodes.all Tree.fits, t.statements)) =
      some (true, [.loop ⟨1, 1⟩ (.ident ⟨1, 7⟩ "b") [.funDef ⟨1, 11⟩ "g" [] [.cont ⟨1, 21⟩]]]) := by
  cbv

/-- The exits of the one text are well placed, and that of the other is not. -/
theorem placement_of_texts :
    (∃ tree, Tree.parse orderlyText = .ok tree ∧ (∀ n ∈ tree.nodes, n.fits = true) ∧ WellPlaced tree) ∧
      ∃ tree, Tree.parse strayText = .ok tree ∧ (∀ n ∈ tree.nodes, n.fits = true) ∧ ¬ WellPlaced tree ∧
        ∃ message loc, check tree.statements = .error (.located (.controlFlow message) loc) := by
  constructor
  · obtain ⟨tree, hparse, hread⟩ := Tree.exists_parse check_orderlyText
    obtain ⟨hfits, hcheck⟩ := Prod.mk.inj hread
    have hfits : ∀ n ∈ tree.nodes, n.fits = true := List.all_eq_true.1 hfits
    exact ⟨tree, hparse, hfits, (check_eq_ok_iff_wellPlaced hparse hfits).1.1 hcheck⟩
  · obtain ⟨tree, hparse, hread⟩ := Tree.exists_parse statements_strayText
    obtain ⟨hfits, hstatements⟩ := Prod.mk.inj hread
    have hfits : ∀ n ∈ tree.nodes, n.fits = true := List.all_eq_true.1 hfits
    obtain ⟨hiff, herror⟩ := check_eq_ok_iff_wellPlaced hparse hfits
    have hnot : ¬ WellPlaced tree := fun hplaced => by
      have hok := hiff.2 hplaced
      rw [hstatements] at hok
      cases hok
    exact ⟨tree, hparse, hfits, hnot, herror hnot⟩

end ControlFlow

end LayerCheck
