import Mathlib
import LayerCheck.Proofs.Refinement.Bodies
import LayerCheck.Proofs.Refinement.Hereditary

/-! Assignments and what is assumed. When a variable gets a new value, what was known of the old one moves to a
temporary, in the types of other inferred variables, in temporaries and in conditions; but declared types stay as
they are. So what is assumed after an assignment is true exactly when the declared types that mention the variable
still hold. -/
namespace LayerCheck.Liquid

open Canonical

/-! ### Declared types that mention variables -/

/-- Declared types with typed predicates: those of variables are about other declared variables, those of functions
about positional arguments and declared variables. -/
structure TypedOver (declared : NameMap RefinedType) (functions : NameMap Signature) : Prop where
  vars : ∀ x ty, declared.get? x = some ty → ty.WellTyped ((basesOf declared).without [x])
  functions : ∀ f s, functions.get? f = some s → s.Positional (basesOf declared)

namespace TypedOver

variable {declared : NameMap RefinedType} {functions : NameMap Signature} {x y : String} {ty : RefinedType}

theorem wellTyped (hd : TypedOver declared functions) (hx : declared.get? x = some ty) :
    ty.WellTyped (basesOf declared) := by
  refine (hd.vars x ty hx).mono fun y b hb => ?_
  rw [Bases.without] at hb
  split at hb
  next => cases hb
  next => exact hb

theorem not_mentions_self (hd : TypedOver declared functions) (hx : declared.get? x = some ty) :
    ¬ ty.Mentions x := by
  intro hm
  have hbound := (hd.vars x ty hx).bound hm
  rw [Bases.without, if_pos (List.mem_singleton_self x)] at hbound
  cases hbound

theorem mentions (hd : TypedOver declared functions) (hx : declared.get? x = some ty) (hy : ty.Mentions y) :
    (declared.get? y).isSome := by
  have hbound := (hd.wellTyped hx).bound hy
  rwa [basesOf, Option.isSome_map] at hbound

end TypedOver

/-! ### Declared types of bodies -/

variable {declared globals : NameMap RefinedType} {params : List String} {s : Signature}

/-- The declared types in the body of a function: those of its parameters before those of other variables. -/
def bodyTypes (globals : NameMap RefinedType) (params : List String) (s : Signature) : NameMap RefinedType :=
  (params.zip s.args).foldl (fun types p => types.insert p.1 (p.2.subst (parameterTerms params))) globals

theorem declareAll_ofDeclared (f : RefinedType → RefinedType) (types : NameMap RefinedType)
    (pairs : List (String × RefinedType)) : declareAll f (.ofDeclared types) pairs =
      .ofDeclared (pairs.foldl (fun types p => types.insert p.1 (f p.2)) types) := by
  induction pairs generalizing types with
  | nil => rfl
  | cons p pairs ih =>
    have hp : (Scope.ofDeclared types).declare p.1 (f p.2) = .ofDeclared (types.insert p.1 (f p.2)) := by
      rw [Scope.declare, Scope.ofDeclared, Scope.ofDeclared]
      exact congrArg (Scope.mk · [] []) (NameMap.mapValues_insert (fun _ ty => VariableType.mk ty true) types _ _).symm
    exact (congrArg (declareAll f · pairs) hp).trans (ih _)

theorem bodyScope_eq_ofDeclared (ctx : Context) (params : List String) (s : Signature) :
    bodyScope ctx params s = .ofDeclared (bodyTypes ctx.globals params s) :=
  declareAll_ofDeclared _ _ _

theorem sorted_bodyTypes (h : globals.Sorted) : (bodyTypes globals params s).Sorted := by
  rw [bodyTypes]
  generalize params.zip s.args = pairs
  induction pairs generalizing globals with
  | nil => exact h
  | cons p pairs ih => exact ih (h.insert _ _)

theorem plain_bodyTypes (hglobals : ∀ x ty, globals.get? x = some ty → Plain x) (hparams : ∀ p ∈ params, Plain p) :
    ∀ x ty, (bodyTypes globals params s).get? x = some ty → Plain x := by
  have hpairs : ∀ p ∈ params.zip s.args, Plain p.1 := fun p hp => hparams p.1 (List.of_mem_zip hp).1
  rw [bodyTypes]
  generalize params.zip s.args = pairs at hpairs
  induction pairs generalizing globals with
  | nil => exact hglobals
  | cons p pairs ih =>
    refine ih (fun x ty hx => ?_) fun q hq => hpairs q (List.mem_cons_of_mem _ hq)
    rw [NameMap.get?_insert] at hx
    split at hx
    next heq => exact heq ▸ hpairs p List.mem_cons_self
    next => exact hglobals x ty hx

/-- The declared types for the code of a program: at the top level, and in the body of a function. -/
inductive CodeTypes (ds : Declarations) (program : List Stmt) : NameMap RefinedType → Prop
  | top : CodeTypes ds program ds.vars
  | body {loc : Location} {f : String} {params : List String} {body : List Stmt} {s : Signature} :
    .funDef loc f params body ∈ Stmt.partsAll program → ds.functions.get? f = some s →
    s.args.length = params.length → CodeTypes ds program (bodyTypes ds.vars params s)

/-! ### Scopes of a program -/

variable {ds : Declarations} {program : List Stmt}

/-- The context of a program, with a scope that is well-formed for some of its code. -/
structure Orderly (ds : Declarations) (program : List Stmt) (ctx : Context) (s : Scope) (made : Nat) : Prop where
  globals : ctx.globals = ds.vars
  functions : ctx.functions = ds.functions
  scope : ∃ declared, CodeTypes ds program declared ∧ s.WellFormed declared made

/-- The check of a program with plain names and typed declarations has well-formed scopes. -/
theorem hereditary_orderly (hnames : ∀ s ∈ Stmt.partsAll program, ∀ x ∈ s.introduced, Plain x)
    (hsorted : ds.vars.Sorted) (hglobals : ∀ x ty, ds.vars.get? x = some ty → Plain x)
    (htyped : ∀ declared, CodeTypes ds program declared → TypedOver declared ds.functions) :
    Hereditary (Stmt.partsAll program) (Orderly ds program) Scope.Names where
  plain hpart := hnames _ hpart _ (List.mem_singleton_self _)
  later {ctx s made made'} h hmade := by
    obtain ⟨declared, hcode, hs⟩ := h.scope
    exact ⟨h.globals, h.functions, declared, hcode, hs.of_closed rfl (hs.toClosed.mono hmade)⟩
  names h hwithin hmade := h.mono hwithin.vars hmade
  var h hx := .inl (by rw [hx]; rfl)
  temporary _ := .inr ⟨_, Nat.lt_succ_self _, rfl⟩
  retire h hx := by
    obtain ⟨declared, hcode, hs⟩ := h.scope
    exact ⟨h.globals, h.functions, declared, hcode, hs.retire hx⟩
  introduce {ctx s made loc x e t} h hpart hundeclared ht hnew base := by
    obtain ⟨declared, hcode, hs⟩ := h.scope
    have hplain : Plain x := hnames _ hpart _ (List.mem_singleton_self _)
    refine ⟨h.globals, h.functions, declared, hcode, hs.introduce hplain hundeclared (fun y hy => ⟨?_, ht y hy⟩) base⟩
    rintro rfl
    -- a term cannot name a variable that is new, and names no old one after its value has moved
    rcases hnew with hnone | hfree
    · rcases ht y hy with hsome | ⟨i, -, rfl⟩
      · rw [hnone] at hsome
        cases hsome
      · exact not_plain_temporaryName i hplain
    · exact hfree hy
  returned {ctx s made f sig terms} h hsig hterms := by
    obtain ⟨declared, hcode, hs⟩ := h.scope
    rw [h.functions] at hsig
    have hclosed := hs.toClosed.mono (Nat.le_succ made)
    refine ⟨h.globals, h.functions, declared, hcode, hs.of_closed rfl
      (hclosed.addTemporary ⟨made, Nat.lt_succ_self made, rfl⟩ fun y hy => ?_)⟩
    rcases RefinedType.mem_freeVars_predicateFor hy with hy | hy
    · refine (hterms.names_subst (fun z hz => ?_) hy).mono (fun _ => id) (Nat.le_succ made)
      refine (((htyped declared hcode).functions f sig hsig).ret z hz).imp_right fun hz => .inl ?_
      rw [basesOf, Option.isSome_map] at hz
      obtain ⟨ty, hty⟩ := Option.isSome_iff_exists.1 hz
      rw [(hs.declared_iff z ty).1 hty]
      rfl
    · rw [List.mem_singleton.1 hy]
      exact .inr ⟨made, Nat.lt_succ_self made, rfl⟩
  condition h hc := by
    obtain ⟨declared, hcode, hs⟩ := h.scope
    exact ⟨h.globals, h.functions, declared, hcode, hs.of_closed rfl (hs.toClosed.addCondition hc)⟩
  body {ctx s made loc f params body sig} h hpart hsig hlen := by
    rw [h.functions] at hsig
    have hcode : CodeTypes ds program (bodyTypes ds.vars params sig) := .body hpart hsig hlen
    refine ⟨h.globals, h.functions, _, hcode, ?_⟩
    rw [bodyScope_eq_ofDeclared, h.globals]
    have hparams : ∀ p ∈ params, Plain p := fun p hp => hnames _ hpart p (List.mem_cons_of_mem f hp)
    exact wellFormed_ofDeclared (sorted_bodyTypes hsorted) (plain_bodyTypes hglobals hparams)
      (fun x ty hx y hy => (htyped _ hcode).mentions hx hy) made

/-! ### Assignments -/

variable {σ : Type} {answer : Answerer σ} {ctx : Context} {st st' : State σ} {ρ ρ' : Valuation}

/-- Storing a value leaves declared types as they are. -/
theorem declared_of_store {loc : Location} {x : String} {m : Meaning} {u : Unit}
    (h : Gives (store answer ctx loc x m) st u st') {y : String} {ty : RefinedType}
    (hy : st.scope.vars.get? y = some ⟨ty, true⟩) : st'.scope.vars.get? y = some ⟨ty, true⟩ := by
  obtain ⟨st₂, rfl, ⟨ty', st₁, hx, hsub, rfl⟩ | ⟨w, hx, hw, -, rfl⟩ | ⟨hx, -, rfl⟩⟩ := gives_store h
  · rw [← (advances_checkSubtype hsub).1] at hy
    exact Scope.declared_retire.2 hy
  · have hne : y ≠ x := by
      rintro rfl
      cases hx.symm.trans hy
      cases hw
    refine (NameMap.get?_insert ..).trans ((if_neg hne).trans ?_)
    exact Scope.declared_retire.2 hy
  · have hne : y ≠ x := by
      rintro rfl
      cases hx.symm.trans hy
    exact (NameMap.get?_insert ..).trans ((if_neg hne).trans hy)

/-- If what is known after an assignment is true, the declared types that mention the variable still hold. -/
theorem survives_of_describes {loc : Location} {x : String} {e : Expr} {u : Unit}
    (h : Gives (checkStmt answer ctx (.assign loc x e)) st u st') (hs : st.scope.Closed st.made) {v : Value}
    (hρ' : AgreesBelow st.made (ρ.set x v) ρ') (hdescribes : st'.scope.Describes ρ')
    (hself : ∀ ty, st.scope.vars.get? x = some ⟨ty, true⟩ → ¬ ty.Mentions x) : st.scope.Survives ρ x v := by
  intro y ty u hy hm hu
  obtain ⟨m, st₁, he, hstore⟩ := gives_assign h
  have hkept := hy
  rw [← (advances_meaning e he).1.vars] at hkept
  obtain ⟨u', hu', hadmits⟩ := hdescribes.vars y _ (declared_of_store hstore hkept)
  have hne : y ≠ x := by
    rintro rfl
    exact hself ty hy hm
  rw [hρ'.eq_of_plain (hs.plain y _ hy), Valuation.set_of_ne ρ hne, hu] at hu'
  cases hu'
  refine ⟨hadmits.1, hadmits.2 ▸ RefinedType.verdict_congr fun z hz => ?_⟩
  exact (hρ'.eq_of_names hs (hs.mentions y _ hy z hz)).symm

/-- If the declared types that mention the variable still hold, so does what is known after an assignment, for some
values of the new temporaries. -/
theorem Follows.describes_assign (ht : Follows answer declared st ρ ρ) (hd : TypedOver declared ctx.functions)
    {loc : Location} {x : String} (hplain : Plain x) {e : Expr} {u : Unit}
    (h : Gives (checkStmt answer ctx (.assign loc x e)) st u st') {v : Value} (hv : e.Yields ctx.functions ρ ρ v)
    (hsurvives : st.scope.Survives ρ x v) :
    ∃ ρ', AgreesBelow st.made (ρ.set x v) ρ' ∧ st'.scope.Describes ρ' := by
  obtain ⟨m, st₁, he, hstore⟩ := gives_assign h
  obtain ⟨hadds, hadv⟩ := advances_meaning e he
  -- the value is the result of a run over the values in scope, which the check of the expression tracks
  obtain ⟨results, hrun⟩ := hv.exists_run e fun _ _ _ _ _ _ _ _ h => h
  have hcalls : CallsOver ctx.functions (basesOf declared) e.steps := fun _ f _ s _ hs => hd.functions f s hs
  have hsound : (e.run ctx.functions ρ (results ++ [])).Ensures (Event.Safe declared ctx.functions) _ :=
    meaning_sound e hcalls he ht.tracks (results ++ [])
  obtain ⟨ρ₁, hρ₁, ht₁, hm⟩ := hsound.result v [] (hrun [])
  have ht₁ := ht.of_tracks hadds ht₁
  have hsurvives₁ : st₁.scope.Survives ρ₁ x v :=
    hρ₁.survives ht.scope.toClosed (fun y ty hy => hadds.vars ▸ hy) hsurvives
  obtain ⟨-, ρ₂, hρ₂, ht₂⟩ := ht₁.store_sound hplain
    (fun ty hty => ⟨hd.wellTyped hty, hd.not_mentions_self hty⟩) hm hsurvives₁ hstore
  exact ⟨ρ₂, (hρ₁.set_both x v).trans hadv.made hρ₂, ht₂.describes⟩

/-- What is known at any point of the check of a program being true, an accepted assignment leaves it true, for some
values of the temporaries that it makes, exactly when the declared types that mention the variable still hold. -/
theorem describes_assign_iff {solver : σ} (hsolver : Truthful answer solver) {text : String} {tree : Tree}
    (hparse : Tree.parse text = .ok tree) {table table' : FactTable}
    (hds : (recordAll ⟨[], []⟩ (tree.declarationsFor layerName)).run.run table = (.ok ds, table'))
    (htyped : ∀ declared, CodeTypes ds tree.statements declared → TypedOver declared ds.functions) {p : Point σ}
    (hp : Reaches answer (.start ds.vars ds.functions solver tree.statements) p) {loc : Location} {x : String}
    {e : Expr} (htask : p.task = .stmt (.assign loc x e))
    (haccept : Gives (checkStmt answer p.ctx (.assign loc x e)) p.st () st') (hρ : p.st.scope.Describes ρ) {v : Value}
    (hv : e.Yields p.ctx.functions ρ ρ v) :
    (∃ ρ', AgreesBelow p.st.made (ρ.set x v) ρ' ∧ st'.scope.Describes ρ') ↔ p.st.scope.Survives ρ x v := by
  have hnames : tree.Named Plain := fun loc x hx => plain_of_identLike (Tree.parse_named hparse loc x hx)
  have hrecorded := recorded_of_recordAll hds
  have hglobals : ∀ x ty, ds.vars.get? x = some ty → Plain x := fun x ty hx => hrecorded.plain hnames hx
  have hkeeps := hereditary_orderly (fun s hs x hx => Stmt.named_introduced hnames hs hx) hrecorded.sorted hglobals
    htyped
  have hstart : Orderly ds tree.statements ⟨ds.functions, ds.vars, none, false⟩ (.ofDeclared ds.vars) 0 := by
    refine ⟨rfl, rfl, ds.vars, .top, wellFormed_ofDeclared hrecorded.sorted hglobals (fun x ty hx y hy => ?_) 0⟩
    exact (htyped _ .top).mentions hx hy
  obtain ⟨hwithin, -, hfunctions, declared, hcode, hscope⟩ := hkeeps.holds_of_reaches hp (fun _ => id) hstart
  have hd := htyped declared hcode
  rw [← hfunctions] at hd
  rw [htask] at hwithin
  have hplain : Plain x := hkeeps.plain (hwithin (List.mem_singleton_self _))
  constructor
  · rintro ⟨ρ', hρ', hdescribes⟩
    refine survives_of_describes haccept hscope.toClosed hρ' hdescribes fun ty hx => ?_
    exact hd.not_mentions_self ((hscope.declared_iff x ty).2 hx)
  · have ht : Follows answer declared p.st ρ ρ := ⟨hscope, hρ, fun _ _ => rfl, hp.advances.solver hsolver⟩
    exact ht.describes_assign hd hplain haccept hv

/-! ### A declared type that mentions the assigned variable -/

/-- The type of `y` mentions `x`, which gets a new value. -/
def outgrownText : String :=
  "x : liquid : \x7bv:Int | v >= 0\x7d\ny : liquid : \x7bv:Int | v > x\x7d\n" ++
    "z : liquid : \x7bv:Int | v > 0\x7d\nx = 5\nz = y - x\n"

def outgrownDeclarations : List Declaration :=
  [⟨⟨1, 1⟩, "x", "liquid", "\x7bv:Int | v >= 0\x7d"⟩, ⟨⟨2, 1⟩, "y", "liquid", "\x7bv:Int | v > x\x7d"⟩,
    ⟨⟨3, 1⟩, "z", "liquid", "\x7bv:Int | v > 0\x7d"⟩]

def outgrowing : Stmt := .assign ⟨4, 1⟩ "x" (.num ⟨4, 5⟩ 5)

def difference : Expr := .binary ⟨5, 5⟩ .sub (.ident ⟨5, 5⟩ "y") (.ident ⟨5, 9⟩ "x")

def outgrownTypes : Declarations where
  vars := [("x", .refined .int "v" (.binary .ge (.var "v") (.int 0))),
    ("y", .refined .int "v" (.binary .gt (.var "v") (.var "x"))), ("z", positive)]
  functions := []

theorem parse_outgrownText : (Tree.parse outgrownText).toOption.map
    (fun tree => (tree.statements, tree.declarationsFor layerName)) =
      some (outgrownDeclarations.map .declare ++ [outgrowing, .assign ⟨5, 1⟩ "z" difference],
        outgrownDeclarations) := by cbv

theorem recordAll_outgrownDeclarations : ∃ table,
    (recordAll ⟨[], []⟩ outgrownDeclarations).run.run .empty = (.ok outgrownTypes, table) := by
  have parse_x : LiquidType.parse "\x7bv:Int | v >= 0\x7d" =
      .ok (.value (.refined .int "v" (.binary .ge (.var "v") (.int 0)))) := by cbv
  have parse_y : LiquidType.parse "\x7bv:Int | v > x\x7d" =
      .ok (.value (.refined .int "v" (.binary .gt (.var "v") (.var "x")))) := by cbv
  refine ⟨_, Prod.ext ?_ rfl⟩
  simp only [outgrownDeclarations, recordAll, parse_x, parse_y, parse_positive]
  rfl

theorem typedOver_outgrownTypes {program : List Stmt} :
    ∀ declared, CodeTypes outgrownTypes program declared → TypedOver declared outgrownTypes.functions := by
  rintro _ (- | ⟨-, hs, -⟩)
  · have hvars : ∀ p ∈ outgrownTypes.vars, p.2.WellTyped ((basesOf outgrownTypes.vars).without [p.1]) := by decide
    exact ⟨fun x ty hx => hvars (x, ty) (NameMap.mem_of_get? hx), fun f s hs => (by cases hs)⟩
  · cases hs

/-- The state after `x` got its new value. -/
def outgrownState : State Unit where
  scope := ⟨outgrownTypes.vars.map fun p => (p.1, ⟨p.2, true⟩), [⟨"$t0", .int, .binary .ge (.var "$t0") (.int 0)⟩], []⟩
  assigned := ["x"]
  made := 1
  solver := ()

theorem checkStmt_outgrowing : Gives (checkStmt (fun q u => (Solver.settle ⟨1, 100⟩ q, u))
    ⟨outgrownTypes.functions, outgrownTypes.vars, none, false⟩ outgrowing) (.start outgrownTypes.vars ()) ()
      outgrownState := by
  rw [Gives]
  cbv

theorem reaches_outgrowing {tree : Tree} (h : tree.statements =
    outgrownDeclarations.map .declare ++ [outgrowing, .assign ⟨5, 1⟩ "z" difference]) (answer : Answerer Unit) :
    Reaches answer (.start outgrownTypes.vars outgrownTypes.functions () tree.statements)
      ⟨⟨outgrownTypes.functions, outgrownTypes.vars, none, false⟩, .start outgrownTypes.vars (), .stmt outgrowing⟩ := by
  have hdeclared : Gives (checkAll answer ⟨outgrownTypes.functions, outgrownTypes.vars, none, false⟩
      (outgrownDeclarations.map .declare)) (.start outgrownTypes.vars ()) () (.start outgrownTypes.vars ()) := rfl
  rw [h]
  exact reaches_stmt hdeclared _ _

/-- Values of the three variables before `x` changes. -/
def outgrownValues (y : Int) : Valuation
  | "x" => some (.int 0)
  | "y" => some (.int y)
  | _ => some (.int 1)

theorem describes_outgrownValues {y : Int} (h : ∀ p ∈ outgrownTypes.vars,
    ∃ v, outgrownValues y p.1 = some v ∧ p.2.Admits (outgrownValues y) v) :
    (Scope.ofDeclared outgrownTypes.vars).Describes (outgrownValues y) :=
  describes_ofDeclared fun x ty hx => h (x, ty) (NameMap.mem_of_get? hx)

/-- With seven in `y`, what is assumed stays true as `x` gets five. -/
theorem outgrowing_describes :
    let ρ := outgrownValues 7
    (Scope.ofDeclared outgrownTypes.vars).Describes ρ ∧ (Scope.ofDeclared outgrownTypes.vars).Survives ρ "x" (.int 5) ∧
      ∃ ρ', AgreesBelow 0 (ρ.set "x" (.int 5)) ρ' ∧ outgrownState.scope.Describes ρ' := by
  intro ρ
  obtain ⟨tree, hparse, hread⟩ := Tree.exists_parse parse_outgrownText
  obtain ⟨hstatements, hdeclarations⟩ := Prod.mk.inj hread
  obtain ⟨table, hds⟩ := recordAll_outgrownDeclarations
  rw [← hdeclarations] at hds
  have hρ : (Scope.ofDeclared outgrownTypes.vars).Describes ρ := by
    refine describes_outgrownValues ?_
    simp only [outgrownTypes, List.forall_mem_cons]
    exact ⟨⟨.int 0, rfl, by decide⟩, ⟨.int 7, rfl, by decide⟩, ⟨.int 1, rfl, by decide⟩, by simp⟩
  have hall : ∀ p ∈ outgrownTypes.vars, p.2.Mentions "x" →
      ∀ u, ρ p.1 = some u → p.2.Admits (ρ.set "x" (.int 5)) u := by
    simp only [outgrownTypes, List.forall_mem_cons]
    refine ⟨fun hm => absurd hm (by decide), fun _ u hu => ?_, fun hm => absurd hm (by decide), by simp⟩
    cases hu
    decide
  have hsurvives : (Scope.ofDeclared outgrownTypes.vars).Survives ρ "x" (.int 5) :=
    fun y ty u hy hm hu => hall (y, ty) (NameMap.mem_of_get? (exists_of_vars_ofDeclared hy).1) hm u hu
  exact ⟨hρ, hsurvives, (describes_assign_iff (truthful_settle ⟨1, 100⟩) hparse hds typedOver_outgrownTypes
    (reaches_outgrowing hstatements _) rfl checkStmt_outgrowing hρ (.num _ 5)).2 hsurvives⟩

/-- With one in `y`, what is assumed is true before `x` gets five, but not after: `y` is still said to exceed `x`. The
next line passes the check, though it stores a negative number in `z`. -/
theorem outgrowing_not_describes :
    let ρ := outgrownValues 1
    let answer : Answerer Unit := fun q u => (Solver.settle ⟨1, 100⟩ q, u)
    (∃ tree table, Tree.parse outgrownText = .ok tree ∧
      (recordAll ⟨[], []⟩ (tree.declarationsFor layerName)).run.run .empty = (.ok outgrownTypes, table) ∧
      (∀ declared, CodeTypes outgrownTypes tree.statements declared →
        TypedOver declared outgrownTypes.functions) ∧
      Reaches answer (.start outgrownTypes.vars outgrownTypes.functions () tree.statements)
        ⟨⟨outgrownTypes.functions, outgrownTypes.vars, none, false⟩, .start outgrownTypes.vars (), .stmt outgrowing⟩ ∧
      (checkProgram answer () outgrownTypes.vars outgrownTypes.functions tree.statements).1 = .ok ()) ∧
    Truthful answer () ∧
    Gives (checkStmt answer ⟨outgrownTypes.functions, outgrownTypes.vars, none, false⟩ outgrowing)
      (.start outgrownTypes.vars ()) () outgrownState ∧
    (Scope.ofDeclared outgrownTypes.vars).Describes ρ ∧
    (¬ ∃ ρ', AgreesBelow 0 (ρ.set "x" (.int 5)) ρ' ∧ outgrownState.scope.Describes ρ') ∧
    difference.Yields outgrownTypes.functions (ρ.set "x" (.int 5)) (ρ.set "x" (.int 5)) (.int (-4)) := by
  intro ρ answer
  obtain ⟨tree, hparse, hread⟩ := Tree.exists_parse parse_outgrownText
  obtain ⟨hstatements, hdeclarations⟩ := Prod.mk.inj hread
  obtain ⟨table, hds⟩ := recordAll_outgrownDeclarations
  rw [← hdeclarations] at hds
  refine ⟨⟨tree, table, hparse, hds, typedOver_outgrownTypes, reaches_outgrowing hstatements _, ?_⟩,
    truthful_settle ⟨1, 100⟩, checkStmt_outgrowing, ?_, ?_, .binary (.ident rfl) (.ident rfl) rfl⟩
  · rw [hstatements]
    cbv
  · refine describes_outgrownValues ?_
    simp only [outgrownTypes, List.forall_mem_cons]
    exact ⟨⟨.int 0, rfl, by decide⟩, ⟨.int 1, rfl, by decide⟩, ⟨.int 1, rfl, by decide⟩, by simp⟩
  · rintro ⟨ρ', hρ', hdescribes⟩
    obtain ⟨u, hu, -, hverdict⟩ := hdescribes.vars "y" _ rfl
    have hx : ρ' "x" = some (.int 5) := hρ'.eq_of_plain (by decide)
    have hy : ρ' "y" = some (.int 1) := hρ'.eq_of_plain (by decide)
    cases hu.symm.trans hy
    have hfalse : (RefinedType.refined .int "v" (.binary .gt (.var "v") (.var "x"))).verdict ρ' (.int 1) =
        some (.bool false) := by
      simp [RefinedType.verdict, RefinedType.refined, Term.denote, Valuation.set, hx, BinaryOp.shortcut?, Value.binary?]
    cases hverdict.symm.trans hfalse

end LayerCheck.Liquid
