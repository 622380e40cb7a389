import Mathlib
import LayerCheck.Proofs.Refinement.Soundness
import LayerCheck.Proofs.Solver.Soundness
import LayerCheck.Proofs.Syntax.Statements
import LayerCheck.Refinement.Declared

/-! Soundness for programs: what is declared comes from the declarations of the program, whose names a
check can tell from its own, so that every run of a straight-line program that passes is safe. -/
namespace LayerCheck.Liquid

/-! ### Declared types -/

/-- Where recorded types come from: the declarations of the program, with positional names in signatures. -/
structure Recorded (decls : List Declaration) (ds : Declarations) : Prop where
  sorted : ds.vars.Sorted
  vars : ∀ x ty, ds.vars.get? x = some ty →
    ∃ d ∈ decls, d.identifier = x ∧ LiquidType.parse d.text = .ok (.value ty)
  functions : ∀ f s, ds.functions.get? f = some s → ∃ d ∈ decls, ∃ s₀, LiquidType.parse d.text = .ok (.function s₀) ∧
    Canonical.signature d.identifier s₀ = .ok s

theorem Recorded.recordAll {decls : List Declaration} {found ds : Declarations} (hf : Recorded decls found)
    {rest : List Declaration} (hrest : ∀ d ∈ rest, d ∈ decls) {table table' : FactTable}
    (h : (Liquid.recordAll found rest).run.run table = (.ok ds, table')) : Recorded decls ds := by
  induction rest generalizing found table with
  | nil =>
    cases h
    exact hf
  | cons d rest ih =>
    have hd := hrest d List.mem_cons_self
    have hrest' : ∀ d ∈ rest, d ∈ decls := fun d hd => hrest d (List.mem_cons_of_mem _ hd)
    obtain ⟨ty, table₁, hty, h⟩ := run_bind_eq_ok.1 h
    have hty : LiquidType.parse d.text = .ok ty := mapError_eq_ok.1 (congrArg Prod.fst hty)
    cases ty with
    | value ty =>
      obtain ⟨_, table₂, -, h⟩ := run_bind_eq_ok.1 h
      have hf' : Recorded decls { found with vars := found.vars.insert d.identifier ty } := by
        refine ⟨hf.sorted.insert _ _, fun x ty' hx => ?_, hf.functions⟩
        rw [NameMap.get?_insert] at hx
        split at hx
        next heq =>
          cases hx
          exact ⟨d, hd, heq.symm, hty⟩
        next => exact hf.vars x ty' hx
      exact ih hf' hrest' h
    | function s =>
      obtain ⟨s', table₂, hs', h⟩ := run_bind_eq_ok.1 h
      have hs' : Canonical.signature d.identifier s = .ok s' := mapError_eq_ok.1 (congrArg Prod.fst hs')
      obtain ⟨_, table₃, -, h⟩ := run_bind_eq_ok.1 h
      have hf' : Recorded decls { found with functions := found.functions.insert d.identifier s' } := by
        refine ⟨hf.sorted, hf.vars, fun f s'' hs'' => ?_⟩
        rw [NameMap.get?_insert] at hs''
        split at hs''
        next =>
          cases hs''
          exact ⟨d, hd, s, hty, hs'⟩
        next => exact hf.functions f s'' hs''
      exact ih hf' hrest' h

theorem recorded_of_recordAll {decls : List Declaration} {ds : Declarations} {table table' : FactTable}
    (h : (recordAll ⟨[], []⟩ decls).run.run table = (.ok ds, table')) : Recorded decls ds := by
  have hempty : Recorded decls ⟨[], []⟩ :=
    ⟨List.Pairwise.nil, fun x ty hx => (by cases hx), fun f s hf => (by cases hf)⟩
  exact hempty.recordAll (fun d hd => hd) h

/-! ### Programs -/

theorem plain_of_identLike {x : String} (h : IdentLike x) : Plain x := by
  obtain ⟨c, cs, rfl, hc⟩ := h
  intro hd
  have hd : c = '$' := by simpa using hd
  rw [hd] at hc
  cases hc

/-- The types of the variables and functions of a program are typed: the predicate of a variable is about its
bound name alone, and a signature is about bound names and declared variables. -/
def DeclaredWell (tree : Tree) (ds : Declarations) : Prop :=
  ∀ d ∈ tree.declarationsFor layerName,
    (∀ ty, LiquidType.parse d.text = .ok (.value ty) → ty.WellTyped fun _ => none) ∧
    ∀ s, LiquidType.parse d.text = .ok (.function s) → s.WellTyped (basesOf ds.vars)

/-- A declared type is typed over variables of given base types. -/
def LiquidType.WellTyped (Γ : Bases) : LiquidType → Prop
  | .value ty => ty.WellTyped fun _ => none
  | .function s => s.WellTyped Γ

instance (Γ : Bases) : (ty : LiquidType) → Decidable (LiquidType.WellTyped Γ ty)
  | .value ty => inferInstanceAs (Decidable (ty.WellTyped _))
  | .function s => inferInstanceAs (Decidable (s.WellTyped Γ))

theorem declaredWell_of_parse {tree : Tree} {ds : Declarations} (h : ∀ d ∈ tree.declarationsFor layerName,
    ∃ ty, LiquidType.parse d.text = .ok ty ∧ LiquidType.WellTyped (basesOf ds.vars) ty) : DeclaredWell tree ds := by
  intro d hd
  obtain ⟨ty, hty, hwell⟩ := h d hd
  refine ⟨fun ty' h' => ?_, fun s h' => ?_⟩ <;> cases hty.symm.trans h' <;> exact hwell

theorem Recorded.plain {tree : Tree} (hnames : tree.Named Plain) {ds : Declarations}
    (h : Recorded (tree.declarationsFor layerName) ds) {x : String} {ty : RefinedType} (hx : ds.vars.get? x = some ty) :
    Plain x := by
  obtain ⟨d, hd, rfl, -⟩ := h.vars x ty hx
  exact Tree.named_identifier hnames (List.mem_filter.1 hd).1

theorem typed_of_recordAll {tree : Tree} (hnames : tree.Named Plain) {ds : Declarations}
    (hwell : DeclaredWell tree ds) (h : Recorded (tree.declarationsFor layerName) ds) :
    Typed ds.vars ds.functions := by
  refine ⟨fun x ty hx => h.plain hnames hx, fun x ty hx => ?_, fun f s hf => ?_⟩
  · obtain ⟨d, hd, -, hty⟩ := h.vars x ty hx
    exact (hwell d hd).1 ty hty
  · obtain ⟨d, hd, s₀, hs₀, hs⟩ := h.functions f s hf
    refine Canonical.positional_signature (fun x hx => ?_) ((hwell d hd).2 s₀ hs₀) hs
    obtain ⟨ty, hty⟩ := Option.isSome_iff_exists.1 (by rwa [basesOf, Option.isSome_map] at hx)
    exact h.plain hnames hty

theorem get?_vars_ofDeclared (declared : NameMap RefinedType) (x : String) :
    (Scope.ofDeclared declared).vars.get? x = (declared.get? x).map fun ty => ⟨ty, true⟩ :=
  NameMap.get?_mapValues (fun _ ty => VariableType.mk ty true) declared x

theorem exists_of_vars_ofDeclared {declared : NameMap RefinedType} {x : String} {w : VariableType}
    (h : (Scope.ofDeclared declared).vars.get? x = some w) : declared.get? x = some w.ty ∧ w.declared = true := by
  rw [get?_vars_ofDeclared] at h
  obtain ⟨ty, hty, rfl⟩ := Option.map_eq_some_iff.1 h
  exact ⟨hty, rfl⟩

theorem wellFormed_ofDeclared {declared : NameMap RefinedType} (hsorted : declared.Sorted)
    (hplain : ∀ x ty, declared.get? x = some ty → Plain x)
    (hmentions : ∀ x ty, declared.get? x = some ty → ∀ y, ty.Mentions y → (declared.get? y).isSome) (made : Nat) :
    (Scope.ofDeclared declared).WellFormed declared made := by
  constructor
  case toClosed =>
    constructor
    case sorted => exact hsorted.mapValues fun _ ty => VariableType.mk ty true
    case plain => exact fun x w hx => hplain x w.ty (exists_of_vars_ofDeclared hx).1
    case mentions =>
      intro x w hx y hy
      refine .inl ?_
      rw [get?_vars_ofDeclared, Option.isSome_map]
      exact hmentions x w.ty (exists_of_vars_ofDeclared hx).1 y hy
    case temporaries => exact fun t ht => (by cases ht)
    case path => exact fun c hc => (by cases hc)
  case declared_iff =>
    intro x ty
    rw [get?_vars_ofDeclared, Option.map_eq_some_iff]
    constructor
    · exact fun hx => ⟨ty, hx, rfl⟩
    · rintro ⟨ty', hx, ⟨⟩⟩
      exact hx
  case inferred | bound =>
    intro x w hx hw
    rw [(exists_of_vars_ofDeclared hx).2] at hw
    cases hw

theorem describes_ofDeclared {declared : NameMap RefinedType} {ρ : Valuation}
    (h : ∀ x ty, declared.get? x = some ty → ∃ v, ρ x = some v ∧ ty.Admits ρ v) :
    (Scope.ofDeclared declared).Describes ρ :=
  ⟨fun x w hx => h x w.ty (exists_of_vars_ofDeclared hx).1, fun t ht => (by cases ht), fun c hc => (by cases hc)⟩

theorem Follows.start {σ : Type} {answer : Answerer σ} {solver : σ} (hsolver : Truthful answer solver)
    {declared : NameMap RefinedType} (hsorted : declared.Sorted) {functions : NameMap Signature}
    (hd : Typed declared functions) {store : Valuation}
    (hstore : ∀ x ty, declared.get? x = some ty → ∃ v, store x = some v ∧ ty.Admits (fun _ => none) v) :
    Follows answer declared (.start declared solver) store store := by
  constructor
  case scope =>
    exact wellFormed_ofDeclared hsorted hd.plain (fun x ty hx y hy => absurd hy (hd.not_mentions hx y)) 0
  case describes =>
    refine describes_ofDeclared fun x ty hx => ?_
    obtain ⟨v, hv, hadmits⟩ := hstore x ty hx
    exact ⟨v, hv, hd.admits hx hadmits store⟩
  case store => exact fun x _ => rfl
  case solver => exact hsolver

theorem gives_of_checkProgram {σ : Type} {answer : Answerer σ} {solver : σ} {globals : NameMap RefinedType}
    {functions : NameMap Signature} {program : List Stmt}
    (h : (checkProgram answer solver globals functions program).1 = .ok ()) :
    ∃ st, Gives (checkAll answer ⟨functions, globals, none, false⟩ program) (.start globals solver) () st :=
  ⟨_, gives_of_fst h⟩

/-- Straight-line code that passes the check is safe: in every run that starts with values of the declared
types, every argument belongs to the type of its parameter for the arguments before it, and every value
stored in a declared variable to the type of the variable. -/
theorem safe_of_checkProgram {σ : Type} {answer : Answerer σ} {solver : σ} (hsolver : Truthful answer solver)
    {text : String} {tree : Tree} (hparse : Tree.parse text = .ok tree)
    (hstraight : ∀ s ∈ tree.statements, s.isStraight = true) {table table' : FactTable} {ds : Declarations}
    (hds : (recordAll ⟨[], []⟩ (tree.declarationsFor layerName)).run.run table = (.ok ds, table'))
    (hwell : DeclaredWell tree ds)
    (haccept : (checkProgram answer solver ds.vars ds.functions tree.statements).1 = .ok ()) {store : Valuation}
    (hstore : ∀ x ty, ds.vars.get? x = some ty → ∃ v, store x = some v ∧ ty.Admits (fun _ => none) v)
    (results : List Value) :
    ∀ e ∈ (Stmt.runAll ds.functions store results tree.statements).events, e.Safe ds.vars ds.functions := by
  have hnames : tree.Named Plain := fun loc x hx => plain_of_identLike (Tree.parse_named hparse loc x hx)
  have hrecorded := recorded_of_recordAll hds
  have htyped := typed_of_recordAll hnames hwell hrecorded
  have htracks := Follows.start hsolver hrecorded.sorted htyped hstore
  have hplain : ∀ loc x e, .assign loc x e ∈ tree.statements → Plain x :=
    fun loc x e hmem => Stmt.named_introduced hnames (Stmt.mem_partsAll_of_mem hmem) (List.mem_singleton_self x)
  obtain ⟨st, hst⟩ := gives_of_checkProgram haccept
  exact (checkAll_sound htyped hstraight hplain hst htracks results).events

/-! ### A program with a dependent call -/

theorem truthful_settle (s : Solver) : Truthful (fun q (u : Unit) => (s.settle q, u)) () := by
  intro asked q hn h
  refine (Query.valid_iff hn).2 fun hf => ?_
  cases (Solver.falsifiable_eliminate_iff hn h).1 hf.eliminate

/-- The variable `p` exceeds one, being the successor of a number that is not negative. -/
def dependentCall : String :=
  "inc : liquid : \x7bx:Int | x >= 0\x7d -> \x7br:Int | r > x\x7d\np : liquid : \x7bv:Int | v > 1\x7d\np = inc(1)"

def dependentCallTree : Tree :=
  .node .program ⟨1, 1⟩
    [.node .layer ⟨1, 1⟩ [.node .ident ⟨1, 1⟩ [.leaf .name ⟨1, 1⟩ "inc"], .leaf .layerName ⟨1, 7⟩ "liquid",
        .leaf .annotationText ⟨1, 16⟩ "\x7bx:Int | x >= 0\x7d -> \x7br:Int | r > x\x7d"],
      .node .layer ⟨2, 1⟩ [.node .ident ⟨2, 1⟩ [.leaf .name ⟨2, 1⟩ "p"], .leaf .layerName ⟨2, 5⟩ "liquid",
        .leaf .annotationText ⟨2, 14⟩ "\x7bv:Int | v > 1\x7d"],
      .node .assign ⟨3, 1⟩ [.node .ident ⟨3, 1⟩ [.leaf .name ⟨3, 1⟩ "p"],
        .node .funCall ⟨3, 5⟩ [.leaf .name ⟨3, 5⟩ "inc", .node .num ⟨3, 9⟩ [.leaf .int ⟨3, 9⟩ "1"]]]]

def dependentCallTypes : Declarations where
  vars := [("p", .refined .int "v" (.binary .gt (.var "v") (.int 1)))]
  functions := [("inc", ⟨[.refined .int "$arg0" (.binary .ge (.var "$arg0") (.int 0))],
    .refined .int "r" (.binary .gt (.var "r") (.var "$arg0"))⟩)]

theorem parse_dependentCall : Tree.parse dependentCall = .ok dependentCallTree := by cbv

theorem declarationsFor_dependentCallTree : dependentCallTree.declarationsFor layerName =
    [⟨⟨1, 1⟩, "inc", "liquid", "\x7bx:Int | x >= 0\x7d -> \x7br:Int | r > x\x7d"⟩,
      ⟨⟨2, 1⟩, "p", "liquid", "\x7bv:Int | v > 1\x7d"⟩] := by cbv

theorem parse_inc : LiquidType.parse "\x7bx:Int | x >= 0\x7d -> \x7br:Int | r > x\x7d" =
    .ok (.function ⟨[.refined .int "x" (.binary .ge (.var "x") (.int 0))],
      .refined .int "r" (.binary .gt (.var "r") (.var "x"))⟩) := by cbv

theorem parse_p : LiquidType.parse "\x7bv:Int | v > 1\x7d" =
    .ok (.value (.refined .int "v" (.binary .gt (.var "v") (.int 1)))) := by cbv

theorem recordAll_dependentCallTree : ∃ table,
    (recordAll ⟨[], []⟩ (dependentCallTree.declarationsFor layerName)).run.run .empty =
      (.ok dependentCallTypes, table) := by
  refine ⟨_, Prod.ext ?_ rfl⟩
  rw [declarationsFor_dependentCallTree]
  simp only [recordAll, parse_inc, parse_p]
  rfl

theorem declaredWell_dependentCallTree : DeclaredWell dependentCallTree dependentCallTypes := by
  refine declaredWell_of_parse ?_
  simp only [declarationsFor_dependentCallTree, List.forall_mem_cons]
  exact ⟨⟨_, parse_inc, by decide⟩, ⟨_, parse_p, by decide⟩, by simp⟩

theorem checkProgram_dependentCall : (checkProgram (fun q (u : Unit) => (Solver.settle ⟨1, 100⟩ q, u)) ()
    dependentCallTypes.vars dependentCallTypes.functions dependentCallTree.statements).1 = .ok () := by cbv

/-- In the run where the call returns seven, that argument and that value are safe. -/
theorem dependentCall_safe :
    let run := Stmt.runAll dependentCallTypes.functions (fun _ => some (.int 5)) [.int 7]
      dependentCallTree.statements
    run.events.length = 2 ∧ ∀ e ∈ run.events, e.Safe dependentCallTypes.vars dependentCallTypes.functions := by
  refine ⟨by cbv, ?_⟩
  obtain ⟨table, hds⟩ := recordAll_dependentCallTree
  refine safe_of_checkProgram (truthful_settle ⟨1, 100⟩) parse_dependentCall ?_ hds declaredWell_dependentCallTree
    checkProgram_dependentCall ?_ [.int 7]
  · exact List.all_eq_true.1 (by cbv : dependentCallTree.statements.all Stmt.isStraight = true)
  · intro x ty hx
    rw [dependentCallTypes, NameMap.get?_cons] at hx
    split at hx
    next =>
      cases hx
      exact ⟨.int 5, rfl, by decide⟩
    next => cases hx

end LayerCheck.Liquid
