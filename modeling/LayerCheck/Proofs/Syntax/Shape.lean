import Mathlib
import LayerCheck.Proofs.Syntax.Names
import LayerCheck.Proofs.Term.Readable
import LayerCheck.Proofs.Token.Spans

/-! The shapes of parsed trees. The grammar makes nodes of a few shapes only, one for each kind of expression and of
statement, and every tree that is read from a text is built from them. Its integer literals consist of digits, so
that only their size decides whether they have a value. -/
namespace LayerCheck

@[simp] theorem BinaryOp.ofSymbol?_symbol (op : BinaryOp) : ofSymbol? op.symbol = some op := by cases op <;> decide

@[simp] theorem UnaryOp.ofSymbol?_symbol (op : UnaryOp) : ofSymbol? op.symbol = some op := by cases op <;> decide

namespace Tree

/-- The tree of an expression. -/
inductive IsExpr : Tree → Prop
  | num (loc loc' : Location) (digits : String) : IsExpr (.node .num loc [.leaf .int loc' digits])
  | trueLit (loc : Location) : IsExpr (.node .trueLit loc [])
  | falseLit (loc : Location) : IsExpr (.node .falseLit loc [])
  | ident (loc : Location) (name : String) : IsExpr (Parse.identNode name loc)
  | call {loc loc' : Location} {name : String} {args : List Tree} (hargs : ∀ a ∈ args, IsExpr a) :
      IsExpr (.node .funCall loc (.leaf .name loc' name :: args))
  | binary {loc loc' : Location} {op : BinaryOp} {lhs rhs : Tree} (hl : IsExpr lhs) (hr : IsExpr rhs) :
      IsExpr (.node .binOp loc [lhs, .leaf .operator loc' op.symbol, rhs])
  | unary {loc loc' : Location} (op : UnaryOp) {operand : Tree} (ho : IsExpr operand) :
      IsExpr (.node .unaryOp loc [.leaf .operator loc' op.symbol, operand])

/-- The name of a function or of a parameter. -/
def IsName (t : Tree) : Prop := ∃ loc x, t = .leaf .name loc x

/-- The tree of a statement. -/
inductive IsStmt : Tree → Prop
  | declare (loc loc₁ loc₂ loc₃ : Location) (x layer text : String) :
      IsStmt (.node .layer loc
        [Parse.identNode x loc₁, .leaf .layerName loc₂ layer, .leaf .annotationText loc₃ text])
  | funDef {loc loc₁ loc₂ : Location} {f : String} {params body : List Tree} (hp : ∀ p ∈ params, IsName p)
      (hb : ∀ s ∈ body, IsStmt s) :
      IsStmt (.node .funDef loc (.leaf .name loc₁ f :: params ++ [.node .block loc₂ body]))
  | ifThen {loc loc₁ : Location} {c : Tree} {body : List Tree} (hc : IsExpr c) (hb : ∀ s ∈ body, IsStmt s) :
      IsStmt (.node .ifStmt loc [c, .node .block loc₁ body])
  | ifElse {loc loc₁ loc₂ : Location} {c : Tree} {body other : List Tree} (hc : IsExpr c)
      (hb : ∀ s ∈ body, IsStmt s) (ho : ∀ s ∈ other, IsStmt s) :
      IsStmt (.node .ifStmt loc [c, .node .block loc₁ body, .node .block loc₂ other])
  | elseIf {loc loc₁ loc₂ : Location} {c : Tree} {body children : List Tree} (hc : IsExpr c)
      (hb : ∀ s ∈ body, IsStmt s) (hn : IsStmt (.node .ifStmt loc₂ children)) :
      IsStmt (.node .ifStmt loc [c, .node .block loc₁ body, .node .ifStmt loc₂ children])
  | loop {loc loc₁ : Location} {c : Tree} {body : List Tree} (hc : IsExpr c) (hb : ∀ s ∈ body, IsStmt s) :
      IsStmt (.node .whileStmt loc [c, .node .block loc₁ body])
  | retNone (loc : Location) : IsStmt (.node .returnStmt loc [])
  | ret (loc : Location) {e : Tree} (he : IsExpr e) : IsStmt (.node .returnStmt loc [e])
  | brk (loc : Location) : IsStmt (.node .breakStmt loc [])
  | cont (loc : Location) : IsStmt (.node .continueStmt loc [])
  | assign (loc loc₁ : Location) (x : String) {e : Tree} (he : IsExpr e) :
      IsStmt (.node .assign loc [Parse.identNode x loc₁, e])
  | expr (loc : Location) {e : Tree} (he : IsExpr e) : IsStmt (.node .exprStmt loc [e])

theorem IsExpr.exists_node {t : Tree} (h : t.IsExpr) : ∃ kind loc children, t = .node kind loc children := by
  cases h <;> exact ⟨_, _, _, rfl⟩

end Tree

namespace Parse

open LayerCheck.Tree

variable {src : Source} {ts rest : List Lexeme}

/-- What was read before a phrase and becomes a part of it is an expression. -/
def Phrase.Shaped : Phrase → Prop
  | binary lhs _ => lhs.IsExpr
  | expression _ | operand | afterName .. | arguments => True

theorem Derives.isExpr {phrase : Phrase} {es : List Tree} (h : Derives src phrase ts es rest) (hp : phrase.Shaped) :
    ∀ e ∈ es, e.IsExpr := by
  induction h with
  | expression first more ih ih' =>
    have hlhs : IsExpr _ := List.forall_mem_singleton.1 (ih trivial)
    exact ih' hlhs
  | stop => exact List.forall_mem_singleton.2 hp
  | extend hop right more ih ih' => exact ih' (.binary hp (List.forall_mem_singleton.1 (ih trivial)))
  | not inner ih => exact List.forall_mem_singleton.2 (.unary .not (List.forall_mem_singleton.1 (ih trivial)))
  | neg inner ih => exact List.forall_mem_singleton.2 (.unary .neg (List.forall_mem_singleton.1 (ih trivial)))
  | num => exact List.forall_mem_singleton.2 (.num _ _ _)
  | trueLit => exact List.forall_mem_singleton.2 (.trueLit _)
  | falseLit => exact List.forall_mem_singleton.2 (.falseLit _)
  | name more ih => exact ih trivial
  | parens inner close ih => exact ih trivial
  | plain => exact List.forall_mem_singleton.2 (.ident _ _)
  | callNone => exact List.forall_mem_singleton.2 (.call fun a ha => (by cases ha))
  | call hne inner close ih => exact List.forall_mem_singleton.2 (.call (ih trivial))
  | lastArgument inner hne ih => exact ih trivial
  | moreArguments inner comma more ih ih' =>
    exact List.forall_mem_cons.2 ⟨List.forall_mem_singleton.1 (ih trivial), ih' trivial⟩

theorem Derives.isExpr_expression {limit : Nat} {e : Tree} (h : Derives src (.expression limit) ts [e] rest) :
    e.IsExpr :=
  List.forall_mem_singleton.1 (h.isExpr trivial)

/-- The shape of what becomes of a clause. -/
def Clause.Shapes : Clause → List Tree → Prop
  | names, xs => ∀ x ∈ xs, x.IsName
  | statements _, ss => ∀ s ∈ ss, s.IsStmt
  | block, ss => ∃ loc body, ss = [.node .block loc body] ∧ ∀ s ∈ body, s.IsStmt
  | conditional _, ss => ∃ loc children, ss = [.node .ifStmt loc children] ∧ IsStmt (.node .ifStmt loc children)
  | statement, ss => ∀ s ∈ ss, s.IsStmt

theorem Forms.shapes {clause : Clause} {ss : List Tree} (h : Forms src clause ts ss rest) : clause.Shapes ss := by
  induction h with
  | noNames => exact fun x hx => (by cases hx)
  | lastName => exact List.forall_mem_singleton.2 ⟨_, _, rfl⟩
  | moreNames comma more ih => exact List.forall_mem_cons.2 ⟨⟨_, _, rfl⟩, ih⟩
  | noStatements => exact fun s hs => (by cases hs)
  | moreStatements first more ih ih' => exact List.forall_mem_cons.2 ⟨List.forall_mem_singleton.1 ih, ih'⟩
  | block opens inner close ih => exact ⟨_, _, rfl, ih⟩
  | ifThen condition thenBlock ih =>
    obtain ⟨_, _, ⟨⟩, hb⟩ := ih
    exact ⟨_, _, rfl, .ifThen condition.isExpr_expression hb⟩
  | ifElse condition thenBlock elseBlock ih ih' =>
    obtain ⟨_, _, ⟨⟩, hb⟩ := ih
    obtain ⟨_, _, ⟨⟩, ho⟩ := ih'
    exact ⟨_, _, rfl, .ifElse condition.isExpr_expression hb ho⟩
  | elseIf condition thenBlock nested ih ih' =>
    obtain ⟨_, _, ⟨⟩, hb⟩ := ih
    obtain ⟨_, _, ⟨⟩, hn⟩ := ih'
    exact ⟨_, _, rfl, .elseIf condition.isExpr_expression hb hn⟩
  | funDef opens inner close block ih ih' =>
    obtain ⟨_, _, ⟨⟩, hb⟩ := ih'
    exact List.forall_mem_singleton.2 (.funDef ih hb)
  | branch inner ih =>
    obtain ⟨_, _, ⟨⟩, hs⟩ := ih
    exact List.forall_mem_singleton.2 hs
  | loop condition block ih =>
    obtain ⟨_, _, ⟨⟩, hb⟩ := ih
    exact List.forall_mem_singleton.2 (.loop condition.isExpr_expression hb)
  | retNone => exact List.forall_mem_singleton.2 (.retNone _)
  | ret value => exact List.forall_mem_singleton.2 (.ret _ value.isExpr_expression)
  | brk => exact List.forall_mem_singleton.2 (.brk _)
  | cont => exact List.forall_mem_singleton.2 (.cont _)
  | declare => exact List.forall_mem_singleton.2 (.declare _ _ _ _ _ _ _)
  | assign value => exact List.forall_mem_singleton.2 (.assign _ _ _ value.isExpr_expression)
  | exprStmt value => exact List.forall_mem_singleton.2 (.expr _ value.isExpr_expression)

/-- A program is a list of well-shaped statements. -/
theorem exists_isStmt_of_program {t : Tree} (h : program src = .ok t) :
    ∃ ss, t = .node .program ⟨1, 1⟩ ss ∧ ∀ s ∈ ss, s.IsStmt := by
  obtain ⟨ss, rest, rfl, hs⟩ := exists_forms_of_program h
  exact ⟨ss, rfl, hs.shapes⟩

end Parse

/-! ### Integer literals -/

namespace Tree

/-- An integer literal denotes a number below `2 ^ 63`. -/
def fits : Tree → Bool
  | .node .num _ (.leaf .int _ digits :: _) => Decimal.ofDigits digits.toList < 9223372036854775808
  | _ => true

/-- An integer literal has a value. -/
def hasValue : Tree → Bool
  | .node .num _ (.leaf .int _ digits :: _) => (Decimal.int64? digits).isSome
  | _ => true

variable {source : String} {tree : Tree}

theorem int64?_of_mem_leaves (h : Tree.parse source = .ok tree) {loc : Location} {digits : String}
    (hmem : .leaf .int loc digits ∈ tree.leaves) :
    Decimal.int64? digits = if Decimal.ofDigits digits.toList < 9223372036854775808
      then some (Decimal.ofDigits digits.toList : Int) else none := by
  obtain ⟨picked, hp, hsub⟩ := Parse.exists_lexemes_of_program h
  obtain ⟨t, ht, hshow⟩ := Parse.exists_lexeme_of_mem hp hmem
  have hlexeme := hsub.subset ht
  cases hshow
  exact Decimal.int64?_of_digits (spelling_ne_nil_of_mem_scanFrom hlexeme)
    (Token.scanned_of_mem_scanFrom 0 _ _ hlexeme)

/-- The literals of a parsed tree that have a value are those that are small enough. -/
theorem hasValue_eq_fits (h : Tree.parse source = .ok tree) {n : Tree} (hn : n ∈ tree.nodes) :
    n.hasValue = n.fits := by
  unfold hasValue fits
  split
  next loc loc' digits rest =>
    have hleaf : leaf .int loc' digits ∈ tree.leaves := leaves_subset_of_mem_nodes hn List.mem_cons_self
    rw [int64?_of_mem_leaves h hleaf]
    split <;> simp_all
  next => rfl

end Tree

end LayerCheck
