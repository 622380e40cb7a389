import Mathlib
import LayerCheck.Proofs.Refinement.Description
import LayerCheck.Proofs.Refinement.StraightLine

/-! What is left in a scope after a conditional. The blocks of a conditional may change variables of which
something was known before it, so the values of those variables are moved to temporaries, and what was known
is said of the temporaries from then on. Only a variable that was not assigned before in the same body is
moved; what is known of another one stays as it is. -/
namespace LayerCheck

/-! ### Moves -/

/-- Renames along moves of variables to temporaries, one after the other. -/
def Term.renameAll (t : Term) : List (String × String) → Term
  | [] => t
  | (x, temporary) :: moves => (t.rename x temporary).renameAll moves

theorem Term.mem_freeVars_renameAll {t : Term} {moves : List (String × String)} {x : String}
    (h : x ∈ (t.renameAll moves).freeVars) :
    (∃ move ∈ moves, x = move.2) ∨ x ∈ t.freeVars ∧ ∀ move ∈ moves, x ≠ move.1 := by
  induction moves generalizing t with
  | nil => exact .inr ⟨h, fun move hmove => (by cases hmove)⟩
  | cons move moves ih =>
    rcases ih h with ⟨move', hmem, heq⟩ | ⟨hm, hne⟩
    · exact .inl ⟨move', List.mem_cons_of_mem _ hmem, heq⟩
    · rcases mem_freeVars_rename hm with heq | ⟨hm, hold⟩
      · exact .inl ⟨move, List.mem_cons_self, heq⟩
      · exact .inr ⟨hm, List.forall_mem_cons.2 ⟨hold, hne⟩⟩

namespace Scope

def redirectAll (w : VariableType) : List (String × String) → VariableType
  | [] => w
  | (x, temporary) :: moves => redirectAll (VariableType.redirect x temporary w) moves

theorem declared_redirectAll (w : VariableType) (moves : List (String × String)) :
    (redirectAll w moves).declared = w.declared := by
  induction moves generalizing w with
  | nil => rfl
  | cons move moves ih => exact (ih _).trans declared_redirect

theorem mentions_redirectAll {w : VariableType} (hw : w.declared = false) {moves : List (String × String)}
    {x : String} (h : (redirectAll w moves).ty.Mentions x) :
    (∃ move ∈ moves, x = move.2) ∨ w.ty.Mentions x ∧ ∀ move ∈ moves, x ≠ move.1 := by
  induction moves generalizing w with
  | nil => exact .inr ⟨h, fun move hmove => (by cases hmove)⟩
  | cons move moves ih =>
    rcases ih (declared_redirect.trans hw) h with ⟨move', hmem, heq⟩ | ⟨hm, hne⟩
    · exact .inl ⟨move', List.mem_cons_of_mem _ hmem, heq⟩
    · rcases mentions_redirect hm with heq | ⟨hm, hold⟩
      · exact .inl ⟨move, List.mem_cons_self, heq⟩
      · exact .inr ⟨hm, List.forall_mem_cons.2 ⟨hold hw, hne⟩⟩

end Scope

namespace Liquid

open Scope (redirectAll)

variable {σ : Type} {answer : Answerer σ} {st st' st'' : State σ}

/-- A scope after moves of variables to temporaries that were not made before. -/
structure Moved (made : Nat) (s s' : Scope) (moves : List (String × String)) : Prop where
  vars : s'.vars = s.vars.map fun (y, w) => (y, redirectAll w moves)
  path : s'.path = s.path.map (·.renameAll moves)
  /-- Earlier temporaries stay, and a new one has the type of the variable whose value it takes. -/
  temporaries : ∃ new, s'.temporaries = s.temporaries.map (fun t => { t with fact := t.fact.renameAll moves }) ++ new ∧
    ∀ before x t after, moves = before ++ (x, t) :: after → ∃ w, s.vars.get? x = some w ∧
      ⟨t, w.ty.base, ((redirectAll w before).ty.predicateFor (.var t)).renameAll after⟩ ∈ new
  fresh : ∀ move ∈ moves, ∃ i, made ≤ i ∧ move.2 = temporaryName i

namespace Moved

variable {moves : List (String × String)} {made made' : Nat} {s s' : Scope}

theorem nil (made : Nat) (s : Scope) : Moved made s s [] where
  vars := by simp [redirectAll]
  path := by simp [Term.renameAll]
  temporaries := ⟨[], by simp [Term.renameAll], fun before x t after h => (by simp at h)⟩
  fresh := by simp

theorem cons {x : String} {w : VariableType} (hx : s.vars.get? x = some w)
    (h : Moved (made + 1) (s.retire x w (temporaryName made)) s' moves) :
    Moved made s s' ((x, temporaryName made) :: moves) where
  vars := by
    rw [h.vars, Scope.retire]
    simp [redirectAll]
  path := by
    rw [h.path, Scope.retire]
    simp [Term.renameAll]
  temporaries := by
    obtain ⟨new, hnew, hmoves⟩ := h.temporaries
    refine ⟨⟨temporaryName made, w.ty.base,
      (w.ty.predicateFor (.var (temporaryName made))).renameAll moves⟩ :: new, ?_, fun before y t after heq => ?_⟩
    · rw [hnew, Scope.retire]
      simp [Term.renameAll]
    · cases before with
      | nil =>
        cases heq
        exact ⟨w, hx, List.mem_cons_self⟩
      | cons move before =>
        cases heq
        obtain ⟨w', hw', hmem⟩ := hmoves before y t after rfl
        obtain ⟨w₀, hw₀, rfl⟩ := Scope.exists_of_vars_retire hw'
        rw [Scope.base_redirect] at hmem
        exact ⟨w₀, hw₀, List.mem_cons_of_mem _ hmem⟩
  fresh := by
    intro move hmove
    rcases List.mem_cons.1 hmove with rfl | hmove
    · exact ⟨made, Nat.le_refl _, rfl⟩
    · obtain ⟨i, hi, heq⟩ := h.fresh move hmove
      exact ⟨i, Nat.le_of_succ_le hi, heq⟩

/-- Moves from a scope with more temporaries are moves from the scope before they were added. -/
theorem of_adds (hadds : Adds st st') (hmade : made ≤ made') (h : Moved made' st'.scope s' moves) :
    Moved made st.scope s' moves where
  vars := by rw [h.vars, hadds.vars]
  path := by rw [h.path, hadds.path]
  temporaries := by
    obtain ⟨new, hnew, hmoves⟩ := h.temporaries
    obtain ⟨added, hadded⟩ := hadds.temporaries
    rw [← hadded, List.map_append, List.append_assoc] at hnew
    refine ⟨_, hnew, fun before x t after heq => ?_⟩
    obtain ⟨w, hw, hmem⟩ := hmoves before x t after heq
    rw [hadds.vars] at hw
    exact ⟨w, hw, List.mem_append_right _ hmem⟩
  fresh := by
    intro move hmove
    obtain ⟨i, hi, heq⟩ := h.fresh move hmove
    exact ⟨i, Nat.le_trans hmade hi, heq⟩

theorem get?_vars (h : Moved made s s' moves) (y : String) :
    s'.vars.get? y = (s.vars.get? y).map (redirectAll · moves) := by
  rw [h.vars]
  exact NameMap.get?_mapValues (fun _ w => redirectAll w moves) s.vars y

/-- After moves, nothing that was inferred before mentions a variable that was moved. -/
theorem silent (h : Moved made s s' moves) {x t : String} (hx : Plain x) (ht : (x, t) ∈ moves) :
    (∀ y w, s'.vars.get? y = some w → w.declared = false → ¬ w.ty.Mentions x) ∧
      (∀ t ∈ s'.temporaries.take s.temporaries.length, x ∉ t.fact.freeVars) ∧ ∀ c ∈ s'.path, x ∉ c.freeVars := by
  have hfresh : ¬ ∃ move ∈ moves, x = move.2 := by
    rintro ⟨move, hmove, rfl⟩
    obtain ⟨i, -, hi⟩ := h.fresh move hmove
    exact not_plain_temporaryName i (hi ▸ hx)
  have hterm (t' : Term) : x ∉ (t'.renameAll moves).freeVars := by
    intro hmem
    rcases Term.mem_freeVars_renameAll hmem with hmem | ⟨-, hne⟩
    · exact hfresh hmem
    · exact hne _ ht rfl
  refine ⟨fun y w hy hw hm => ?_, fun t' ht' => ?_, fun c hc => ?_⟩
  · rw [h.get?_vars] at hy
    obtain ⟨w₀, -, rfl⟩ := Option.map_eq_some_iff.1 hy
    rw [Scope.declared_redirectAll] at hw
    rcases Scope.mentions_redirectAll hw hm with hm | ⟨-, hne⟩
    · exact hfresh hm
    · exact hne _ ht rfl
  · obtain ⟨new, hnew, -⟩ := h.temporaries
    rw [hnew, List.take_left' (List.length_map _)] at ht'
    obtain ⟨t₀, -, rfl⟩ := List.mem_map.1 ht'
    exact hterm t₀.fact
  · rw [h.path] at hc
    obtain ⟨c₀, -, rfl⟩ := List.mem_map.1 hc
    exact hterm c₀

end Moved

theorem gives_retireAll {xs : List String} {u : Unit} (h : Gives (retireAll xs) st u st') :
    st'.assigned = st.assigned ∧ ∃ moves, Moved st.made st.scope st'.scope moves ∧
      ∀ x, (∃ t, (x, t) ∈ moves) ↔ x ∈ xs ∧ (st.scope.vars.get? x).isSome := by
  induction xs generalizing st with
  | nil =>
    obtain ⟨-, rfl⟩ := gives_pure.1 h
    exact ⟨rfl, [], .nil st.made st.scope, by simp⟩
  | cons x xs ih =>
    obtain ⟨_, st₁, hx, h⟩ := gives_bind.1 h
    obtain ⟨hassigned, moves, hmoved, hmoves⟩ := ih h
    rcases gives_retire hx with ⟨hnone, -, rfl⟩ | ⟨w, hsome, -, rfl⟩
    · refine ⟨hassigned, moves, hmoved, fun y => ?_⟩
      rw [hmoves, List.mem_cons]
      refine ⟨fun ⟨hy, hin⟩ => ⟨.inr hy, hin⟩, fun ⟨hy, hin⟩ => ⟨hy.resolve_left ?_, hin⟩⟩
      rintro rfl
      rw [hnone] at hin
      cases hin
    · refine ⟨hassigned, _, hmoved.cons hsome, fun y => ?_⟩
      have hkeys : ((st.retired x w).scope.vars.get? y).isSome = (st.scope.vars.get? y).isSome := by
        rw [State.retired, Scope.get?_vars_retire, Option.isSome_map]
      simp only [List.mem_cons, Prod.mk.injEq, exists_or, exists_and_left, exists_eq, and_true, hmoves, hkeys]
      constructor
      · rintro (rfl | ⟨hy, hin⟩)
        · exact ⟨.inl rfl, by rw [hsome]; rfl⟩
        · exact ⟨.inr hy, hin⟩
      · rintro ⟨rfl | hy, hin⟩
        · exact .inl rfl
        · exact .inr ⟨hy, hin⟩

/-! ### Blocks of a conditional -/

/-- The variables in scope stay, and those that were assigned. -/
structure Keeps (st st' : State σ) : Prop where
  vars : ∀ x, (st'.scope.vars.get? x).isSome = (st.scope.vars.get? x).isSome
  assigned : st.assigned ⊆ st'.assigned

namespace Keeps

theorem refl (st : State σ) : Keeps st st := ⟨fun _ => rfl, fun _ => id⟩

theorem trans (h : Keeps st st') (h' : Keeps st' st'') : Keeps st st'' :=
  ⟨fun x => (h'.vars x).trans (h.vars x), List.Subset.trans h.assigned h'.assigned⟩

theorem of_adds (h : Adds st st') : Keeps st st' := by
  refine ⟨fun x => by rw [h.vars], ?_⟩
  rw [h.assigned]
  exact fun _ => id

end Keeps

/-- Variables of a scope have been assigned since. -/
def Assigned (st st' : State σ) (xs : List String) : Prop :=
  ∀ x ∈ xs, x ∈ st'.assigned ∧ (st.scope.vars.get? x).isSome

/-- What the two blocks of a conditional do together, and the moves at its end. -/
theorem moved_of_blocks {ctx ctx' : Context} {c : Expr} {ts es : List Stmt} {m : Meaning} {st₁ st₂ st₃ : State σ}
    (hc : Gives (meaning answer ctx c) st m st₁)
    (hts : Gives (checkAll answer ctx' ts) { st₁ with scope := st₁.scope.addCondition m.term } () st₂)
    (hthen : Keeps { st₁ with scope := st₁.scope.addCondition m.term } st₂ ∧
      Assigned { st₁ with scope := st₁.scope.addCondition m.term } st₂ (Stmt.targetsAll ts))
    (hes : Gives (checkAll answer ctx' es) { st₂ with scope := st₁.scope.addCondition m.term.not } () st₃)
    (helse : Keeps { st₂ with scope := st₁.scope.addCondition m.term.not } st₃ ∧
      Assigned { st₂ with scope := st₁.scope.addCondition m.term.not } st₃ (Stmt.targetsAll es))
    (hretire : Gives (retireAll (NameSet.diff st₃.assigned st₁.assigned)) { st₃ with scope := st₁.scope } () st') :
    Keeps st st' ∧ Assigned st st' (Stmt.targetsAll ts ++ Stmt.targetsAll es) ∧
      ∃ moves, Moved st.made st.scope st'.scope moves ∧
        ∀ x, (∃ t, (x, t) ∈ moves) ↔ x ∈ st'.assigned ∧ x ∉ st.assigned ∧ (st.scope.vars.get? x).isSome := by
  obtain ⟨hadds, hadv⟩ := advances_meaning c hc
  obtain ⟨hassigned, moves, hmoved, hmoves⟩ := gives_retireAll hretire
  have hmade : st.made ≤ st₃.made :=
    Nat.le_trans hadv.made (Nat.le_trans (advances_checkAll ts hts).made (advances_checkAll es hes).made)
  have hmoved' : Moved st.made st.scope st'.scope moves := .of_adds hadds hmade hmoved
  have hgrows : st.assigned ⊆ st₂.assigned := hadds.assigned ▸ hthen.1.assigned
  refine ⟨⟨fun x => ?_, ?_⟩, fun x hx => ?_, moves, hmoved', fun x => ?_⟩
  · rw [hmoved'.get?_vars, Option.isSome_map]
  · rw [hassigned]
    exact List.Subset.trans hgrows helse.1.assigned
  · rw [hassigned, ← hadds.vars]
    rcases List.mem_append.1 hx with hx | hx
    · exact ⟨helse.1.assigned (hthen.2 x hx).1, (hthen.2 x hx).2⟩
    · exact helse.2 x hx
  · rw [hmoves, hassigned, ← hadds.assigned, ← hadds.vars]
    simp [NameSet.diff, and_assoc]

mutual

theorem keeps_checkStmt (s : Stmt) {ctx : Context} {st st' : State σ} {u : Unit} (hctx : ctx.inBranch = true)
    (h : Gives (checkStmt answer ctx s) st u st') : Keeps st st' ∧ Assigned st st' s.targets := by
  cases s with
  | declare d | brk loc | cont loc =>
    rw [checkStmt, gives_pure] at h
    obtain ⟨-, rfl⟩ := h
    exact ⟨.refl st, fun x hx => (by cases hx)⟩
  | funDef loc name params body =>
    obtain ⟨s, st₁, -, -, rfl⟩ := gives_funDef h
    exact ⟨⟨fun _ => rfl, fun _ => id⟩, fun x hx => (by cases hx)⟩
  | branch loc c ts es =>
    obtain ⟨m, st₁, st₂, st₃, hc, hts, hes, hretire⟩ := gives_branch h
    have hthen := keeps_checkAll ts rfl hts
    have helse := keeps_checkAll es rfl hes
    obtain ⟨hkeeps, htargets, -⟩ := moved_of_blocks hc hts hthen hes helse hretire
    exact ⟨hkeeps, htargets⟩
  | loop loc c body =>
    rw [checkStmt] at h
    exact absurd h gives_throw
  | ret loc value =>
    obtain ⟨-, rfl⟩ | ⟨expected, e, m, st₁, -, -, he, hsub⟩ := gives_ret h
    · exact ⟨.refl st, fun x hx => (by cases hx)⟩
    · have hadds := (advances_meaning e he).1.trans (advances_checkSubtype hsub).2.1
      exact ⟨.of_adds hadds, fun x hx => (by cases hx)⟩
  | assign loc x e =>
    obtain ⟨m, st₁, he, hstore⟩ := gives_assign h
    obtain ⟨hadds, -⟩ := advances_meaning e he
    obtain ⟨st₂, rfl, ⟨ty, st₃, hx, hsub, rfl⟩ | ⟨w, -, -, hout, -⟩ | ⟨-, hout, -⟩⟩ := gives_store hstore
    · have hadds := hadds.trans (advances_checkSubtype hsub).2.1
      refine ⟨⟨fun y => ?_, fun y hy => ?_⟩, fun y hy => ⟨?_, ?_⟩⟩
      · rw [State.retired, Scope.get?_vars_retire, Option.isSome_map, hadds.vars]
      · exact NameSet.mem_insert.2 (.inr (hadds.assigned ▸ hy))
      · exact NameSet.mem_insert.2 (.inl (List.mem_singleton.1 hy))
      · rw [List.mem_singleton.1 hy, ← (advances_meaning e he).1.vars, hx]
        rfl
    · cases hctx.symm.trans hout
    · cases hctx.symm.trans hout
  | expr loc e =>
    simp only [checkStmt, gives_bind, gives_pure] at h
    obtain ⟨m, st₁, he, -, rfl⟩ := h
    exact ⟨.of_adds (advances_meaning e he).1, fun x hx => (by cases hx)⟩
  | malformed loc kind =>
    rw [checkStmt] at h
    exact absurd h gives_throw

theorem keeps_checkAll (ss : List Stmt) {ctx : Context} {st st' : State σ} {u : Unit} (hctx : ctx.inBranch = true)
    (h : Gives (checkAll answer ctx ss) st u st') : Keeps st st' ∧ Assigned st st' (Stmt.targetsAll ss) := by
  match ss with
  | [] =>
    rw [checkAll, gives_pure] at h
    obtain ⟨-, rfl⟩ := h
    exact ⟨.refl st, fun x hx => (by cases hx)⟩
  | s :: ss =>
    simp only [checkAll, gives_bind] at h
    obtain ⟨_, st₁, hs, hss⟩ := h
    obtain ⟨hkeeps, htargets⟩ := keeps_checkStmt s hctx hs
    obtain ⟨hkeeps', htargets'⟩ := keeps_checkAll ss hctx hss
    refine ⟨hkeeps.trans hkeeps', fun x hx => ?_⟩
    rcases List.mem_append.1 hx with hx | hx
    · exact ⟨hkeeps'.assigned (htargets x hx).1, (htargets x hx).2⟩
    · exact ⟨(htargets' x hx).1, hkeeps.vars x ▸ (htargets' x hx).2⟩

end

/-- After a conditional of a program, whatever the state that it is checked in, the targets of its blocks that
were not assigned before have been moved to fresh temporaries: nothing that was inferred before the conditional
mentions them under their own names, and where it did, it mentions the temporaries. -/
theorem exists_moved_of_branch {text : String} {tree : Tree} (hparse : Tree.parse text = .ok tree) {loc : Location}
    {c : Expr} {ts es : List Stmt} (hmem : .branch loc c ts es ∈ Stmt.partsAll tree.statements) {ctx : Context}
    (h : Gives (checkStmt answer ctx (.branch loc c ts es)) st () st') :
    ∃ moves, Moved st.made st.scope st'.scope moves ∧
      ∀ x ∈ Stmt.targetsAll ts ++ Stmt.targetsAll es, ((∃ t, (x, t) ∈ moves) ↔ x ∉ st.assigned) ∧
        (x ∉ st.assigned → (∀ y w, st'.scope.vars.get? y = some w → w.declared = false → ¬ w.ty.Mentions x) ∧
          (∀ t ∈ st'.scope.temporaries.take st.scope.temporaries.length, x ∉ t.fact.freeVars) ∧
          ∀ c ∈ st'.scope.path, x ∉ c.freeVars) := by
  obtain ⟨m, st₁, st₂, st₃, hc, hts, hes, hretire⟩ := gives_branch h
  have hthen := keeps_checkAll ts rfl hts
  have helse := keeps_checkAll es rfl hes
  obtain ⟨-, htargets, moves, hmoved, hmoves⟩ := moved_of_blocks hc hts hthen hes helse hretire
  refine ⟨moves, hmoved, fun x hx => ?_⟩
  have hiff : (∃ t, (x, t) ∈ moves) ↔ x ∉ st.assigned := by
    rw [hmoves]
    exact ⟨fun h => h.2.1, fun h => ⟨(htargets x hx).1, h, (htargets x hx).2⟩⟩
  have hplain : Plain x := by
    obtain ⟨loc', e, he⟩ := Stmt.exists_assign_of_mem_targets (.branch loc c ts es) hx
    exact plain_of_identLike (Stmt.named_introduced (Tree.parse_named hparse)
      (Stmt.partsAll_subset _ hmem he) (List.mem_singleton_self x))
  refine ⟨hiff, fun hnew => ?_⟩
  obtain ⟨t, ht⟩ := hiff.2 hnew
  exact hmoved.silent hplain ht

/-! ### A fact that is moved, and one that goes stale -/

def natural : RefinedType := .refined .int "v" (.binary .ge (.var "v") (.int 0))

/-- The value of `x` is noted in `y`, and then `x` changes in a block inside a block. -/
def notedText : String :=
  "x : liquid : \x7bv:Int | v >= 0\x7d\ny = x\nif y > 3 \x7b x = 5 \x7d else if x > 1 \x7b x = 2 \x7d"

def notedBranch : Stmt :=
  .branch ⟨3, 1⟩ (.binary ⟨3, 4⟩ .gt (.ident ⟨3, 4⟩ "y") (.num ⟨3, 8⟩ 3)) [.assign ⟨3, 12⟩ "x" (.num ⟨3, 16⟩ 5)]
    [.branch ⟨3, 25⟩ (.binary ⟨3, 28⟩ .gt (.ident ⟨3, 28⟩ "x") (.num ⟨3, 32⟩ 1))
      [.assign ⟨3, 36⟩ "x" (.num ⟨3, 40⟩ 2)] []]

theorem statements_notedText : (Tree.parse notedText).toOption.map Tree.statements =
    some [.declare ⟨⟨1, 1⟩, "x", "liquid", "\x7bv:Int | v >= 0\x7d"⟩, .assign ⟨2, 1⟩ "y" (.ident ⟨2, 5⟩ "x"),
      notedBranch] := by cbv

/-- The state after the second line. -/
def notedState : State Unit where
  scope := ⟨[("x", ⟨natural, true⟩), ("y", ⟨.singleton .int (.var "x"), false⟩)], [], []⟩
  assigned := ["y"]
  made := 0
  solver := ()

theorem checkStmt_notedBranch : ((checkStmt (fun q u => (Solver.settle ⟨1, 100⟩ q, u))
    ⟨[], [("x", natural)], none, false⟩ notedBranch).run.run notedState).1 = .ok () := by cbv

theorem notedBranch_moved : ∃ st' moves,
    Gives (checkStmt (fun q u => (Solver.settle ⟨1, 100⟩ q, u)) ⟨[], [("x", natural)], none, false⟩ notedBranch)
      notedState () st' ∧
    Moved 0 notedState.scope st'.scope moves ∧ (∃ t, ("x", t) ∈ moves) ∧
    ∀ w, st'.scope.vars.get? "y" = some w → w.declared = false → ¬ w.ty.Mentions "x" := by
  obtain ⟨tree, hparse, hstatements⟩ := Tree.exists_parse statements_notedText
  have hmem : notedBranch ∈ Stmt.partsAll tree.statements := by
    rw [hstatements]
    exact Stmt.mem_partsAll_of_mem (by simp)
  have hgives := gives_of_fst checkStmt_notedBranch
  obtain ⟨moves, hmoved, hx⟩ := exists_moved_of_branch hparse hmem hgives
  obtain ⟨hiff, hsilent⟩ := hx "x" (by decide)
  exact ⟨_, moves, hgives, hmoved, hiff.2 (by decide), (hsilent (by decide)).1 "y"⟩

/-- Here `x` is assigned before its value is noted in `y`. -/
def staleText : String :=
  "x : liquid : \x7bv:Int | v >= 0\x7d\nz : liquid : \x7bv:Int | v == 0\x7d\nx = 1\ny = x\n" ++
    "if true \x7b x = 5 \x7d\nz = x - y\n"

def staleBranch : Stmt := .branch ⟨5, 1⟩ (.bool ⟨5, 4⟩ true) [.assign ⟨5, 11⟩ "x" (.num ⟨5, 15⟩ 5)] []

def staleStart : List Stmt :=
  [.declare ⟨⟨1, 1⟩, "x", "liquid", "\x7bv:Int | v >= 0\x7d"⟩,
    .declare ⟨⟨2, 1⟩, "z", "liquid", "\x7bv:Int | v == 0\x7d"⟩,
    .assign ⟨3, 1⟩ "x" (.num ⟨3, 5⟩ 1), .assign ⟨4, 1⟩ "y" (.ident ⟨4, 5⟩ "x")]

def staleEnd : List Stmt :=
  [.assign ⟨6, 1⟩ "z" (.binary ⟨6, 5⟩ .sub (.ident ⟨6, 5⟩ "x") (.ident ⟨6, 9⟩ "y"))]

theorem statements_staleText : (Tree.parse staleText).toOption.map Tree.statements =
    some (staleStart ++ staleBranch :: staleEnd) := by cbv

def staleTypes : NameMap RefinedType := [("x", natural), ("z", .singleton .int (.int 0))]

theorem parse_staleTypes : ∀ d, .declare d ∈ staleStart →
    ∃ ty, LiquidType.parse d.text = .ok (.value ty) ∧ staleTypes.get? d.identifier = some ty := by
  intro d hd
  simp only [staleStart, List.mem_cons, Stmt.declare.injEq, reduceCtorEq, List.not_mem_nil, or_false] at hd
  rcases hd with rfl | rfl
  · exact ⟨natural, by cbv, rfl⟩
  · exact ⟨.singleton .int (.int 0), by cbv, rfl⟩

/-- The state before the conditional and, but for the number of temporaries made, after it. -/
def staleState (made : Nat) : State Unit where
  scope := ⟨[("x", ⟨natural, true⟩), ("y", ⟨.singleton .int (.var "x"), false⟩),
    ("z", ⟨.singleton .int (.int 0), true⟩)], [⟨"$t0", .int, .binary .ge (.var "$t0") (.int 0)⟩], []⟩
  assigned := ["x", "y"]
  made := made
  solver := ()

/-- After the conditional, the type of `y` still says that `y` is `x`, and so the last line is accepted. -/
theorem staleBranch_mentions :
    (∃ tree, Tree.parse staleText = .ok tree ∧ tree.statements = staleStart ++ staleBranch :: staleEnd) ∧
      (∀ d, .declare d ∈ staleStart →
        ∃ ty, LiquidType.parse d.text = .ok (.value ty) ∧ staleTypes.get? d.identifier = some ty) ∧
      Gives (checkAll (fun q u => (Solver.settle ⟨1, 100⟩ q, u)) ⟨[], staleTypes, none, false⟩ staleStart)
        (.start staleTypes ()) () (staleState 1) ∧
      Gives (checkStmt (fun q u => (Solver.settle ⟨1, 100⟩ q, u)) ⟨[], staleTypes, none, false⟩ staleBranch)
        (staleState 1) () (staleState 2) ∧
      "x" ∈ staleBranch.targets ∧ (∃ w, (staleState 2).scope.vars.get? "y" = some w ∧ w.declared = false ∧
        w.ty.Mentions "x") ∧
      ((checkAll (fun q u => (Solver.settle ⟨1, 100⟩ q, u)) ⟨[], staleTypes, none, false⟩ staleEnd).run.run
        (staleState 2)).1 = .ok () := by
  refine ⟨Tree.exists_parse statements_staleText, parse_staleTypes, ?_, ?_, by decide, ⟨_, rfl, rfl, by decide⟩, ?_⟩
  · rw [Gives]
    cbv
  · rw [Gives]
    cbv
  · cbv

end Liquid

end LayerCheck
