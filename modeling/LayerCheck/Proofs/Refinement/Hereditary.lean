import Mathlib
import LayerCheck.Proofs.Refinement.Points

/-! Properties of scopes that a check keeps. A scope changes in few ways: the value of a variable moves to a
temporary, a variable gets the type of the value assigned to it, a call leaves a temporary for its result, a block
of a conditional adds its condition, and a body begins with a scope of its own. A property that each of these keeps,
as long as terms are about names of some kind, holds at all points of a check. -/
namespace LayerCheck

/-! ### Scopes that grow -/

/-- All variables and temporaries of a scope are ones of another by name. -/
structure Scope.Within (s s' : Scope) : Prop where
  vars : ∀ y, (s.vars.get? y).isSome → (s'.vars.get? y).isSome
  temporaries : ∀ t ∈ s.temporaries, ∃ t' ∈ s'.temporaries, t'.name = t.name

namespace Scope.Within

theorem refl (s : Scope) : s.Within s := ⟨fun _ => id, fun t ht => ⟨t, ht, rfl⟩⟩

theorem retire (s : Scope) (x : String) (w : VariableType) (t : String) : s.Within (s.retire x w t) := by
  refine ⟨fun y hy => ?_, fun t₀ ht₀ => ?_⟩
  · rw [get?_vars_retire, Option.isSome_map]
    exact hy
  · exact ⟨_, List.mem_append_left _ (List.mem_map_of_mem ht₀), rfl⟩

theorem introduce (s : Scope) (x : String) (w : VariableType) : s.Within { s with vars := s.vars.insert x w } := by
  refine ⟨fun y hy => ?_, fun t ht => ⟨t, ht, rfl⟩⟩
  dsimp only
  rw [NameMap.get?_insert]
  split
  · rfl
  · exact hy

theorem addTemporary (s : Scope) (t : Temporary) : s.Within (s.addTemporary t) :=
  ⟨fun _ => id, fun t' ht' => ⟨t', List.mem_append_left _ ht', rfl⟩⟩

end Scope.Within

theorem Scope.exists_temporary_retire (s : Scope) (x : String) (w : VariableType) (t : String) :
    ∃ t' ∈ (s.retire x w t).temporaries, t'.name = t :=
  ⟨_, List.mem_append_right _ (List.mem_singleton_self _), rfl⟩

theorem Scope.exists_temporary_addTemporary (s : Scope) (t : Temporary) :
    ∃ t' ∈ (s.addTemporary t).temporaries, t'.name = t.name :=
  ⟨t, List.mem_append_right _ (List.mem_singleton_self _), rfl⟩

namespace Liquid

open Canonical

theorem Adds.within {σ : Type} {st st' : State σ} (h : Adds st st') : st.scope.Within st'.scope :=
  ⟨fun _ hy => h.vars ▸ hy, fun t ht => ⟨t, h.temporaries.subset ht, rfl⟩⟩

/-- What a check with the given statements does to a scope keeps a property of the context, the scope and the
number of temporaries made, where terms mention names of some kind only. -/
structure Hereditary (parts : List Stmt) (J : Context → Scope → Nat → Prop) (N : Scope → Nat → String → Prop) :
    Prop where
  plain {loc : Location} {x : String} {e : Expr} : .assign loc x e ∈ parts → Plain x
  later {ctx : Context} {s : Scope} {made made' : Nat} : J ctx s made → made ≤ made' → J ctx s made'
  names {s s' : Scope} {made made' : Nat} {x : String} :
    N s made x → s.Within s' → made ≤ made' → N s' made' x
  var {ctx : Context} {s : Scope} {made : Nat} {x : String} {w : VariableType} :
    J ctx s made → s.vars.get? x = some w → N s made x
  temporary {s : Scope} {made : Nat} :
    (∃ t ∈ s.temporaries, t.name = temporaryName made) → N s (made + 1) (temporaryName made)
  retire {ctx : Context} {s : Scope} {made : Nat} {x : String} {w : VariableType} :
    J ctx s made → s.vars.get? x = some w → J ctx (s.retire x w (temporaryName made)) (made + 1)
  introduce {ctx : Context} {s : Scope} {made : Nat} {loc : Location} {x : String} {e : Expr} {t : Term} :
    J ctx s made → .assign loc x e ∈ parts → (∀ w, s.vars.get? x = some w → w.declared = false) →
    (∀ y ∈ t.freeVars, N s made y) → s.vars.get? x = none ∨ x ∉ t.freeVars → ∀ base,
    J ctx { s with vars := s.vars.insert x ⟨.exactly base t, false⟩ } made
  returned {ctx : Context} {s : Scope} {made : Nat} {f : String} {sig : Signature} {terms : NameMap Term} :
    J ctx s made → ctx.functions.get? f = some sig → Supplies (N s made) terms sig.args.length →
    J ctx (s.addTemporary ⟨temporaryName made, (sig.ret.subst terms).base,
      (sig.ret.subst terms).predicateFor (.var (temporaryName made))⟩) (made + 1)
  condition {ctx : Context} {s : Scope} {made : Nat} {c : Term} :
    J ctx s made → (∀ y ∈ c.freeVars, N s made y) → J { ctx with inBranch := true } (s.addCondition c) made
  body {ctx : Context} {s : Scope} {made : Nat} {loc : Location} {f : String} {params : List String}
      {body : List Stmt} {sig : Signature} :
    J ctx s made → .funDef loc f params body ∈ parts → ctx.functions.get? f = some sig →
    sig.args.length = params.length →
    J { ctx with result := some (sig.ret.subst (parameterTerms params)), inBranch := false }
      (bodyScope ctx params sig) made

/-- The statements of a task are among some. -/
def Task.Within (parts : List Stmt) : Task → Prop
  | block ss => Stmt.partsAll ss ⊆ parts
  | stmt s => s.parts ⊆ parts
  | _ => True

namespace Hereditary

variable {σ : Type} {answer : Answerer σ} {ctx : Context} {st st' : State σ} {parts : List Stmt}
variable {J : Context → Scope → Nat → Prop} {N : Scope → Nat → String → Prop}

/-! ### Checks that succeed -/

theorem keeps_checkSubtype {m : Meaning} {expected : RefinedType} {text : String} {loc : Location} {u : Unit}
    (hJ : J ctx st.scope st.made) (h : Gives (checkSubtype answer m expected text loc) st u st') :
    J ctx st'.scope st'.made := by
  obtain ⟨-, ⟨-, rfl⟩ | ⟨q, -, -, rfl⟩⟩ := gives_checkSubtype h <;> exact hJ

theorem keeps_retire (hh : Hereditary parts J N) (hJ : J ctx st.scope st.made) {x : String} {r : Option String}
    (h : Gives (Liquid.retire x) st r st') : J ctx st'.scope st'.made := by
  rcases gives_retire h with ⟨-, -, rfl⟩ | ⟨w, hx, -, rfl⟩
  · exact hJ
  · exact hh.retire hJ hx

theorem keeps_retireAll (hh : Hereditary parts J N) {xs : List String} {u : Unit} (hJ : J ctx st.scope st.made)
    (h : Gives (retireAll xs) st u st') : J ctx st'.scope st'.made := by
  induction xs generalizing st with
  | nil =>
    obtain ⟨-, rfl⟩ := gives_pure.1 h
    exact hJ
  | cons x xs ih =>
    obtain ⟨_, st₁, hx, h⟩ := gives_bind.1 h
    exact ih (hh.keeps_retire hJ hx) h

theorem keeps_store (hh : Hereditary parts J N) {loc loc' : Location} {x : String} {e : Expr} {m : Meaning} {u : Unit}
    (hpart : .assign loc' x e ∈ parts) (hJ : J ctx st.scope st.made)
    (hm : ∀ y ∈ m.term.freeVars, N st.scope st.made y) (h : Gives (store answer ctx loc x m) st u st') :
    J ctx st'.scope st'.made := by
  obtain ⟨st₂, rfl, ⟨ty, st₁, hx, hsub, rfl⟩ | ⟨w, hx, hw, -, rfl⟩ | ⟨hx, -, rfl⟩⟩ := gives_store h
  · refine hh.retire (keeps_checkSubtype hJ hsub) ?_
    rw [(advances_checkSubtype hsub).1, hx]
  · have hne : x ∉ (m.term.rename x (temporaryName st.made)).freeVars := by
      intro hmem
      rcases Term.mem_freeVars_rename hmem with heq | ⟨-, hne⟩
      · exact not_plain_temporaryName _ (heq ▸ hh.plain hpart)
      · exact hne rfl
    refine hh.introduce (hh.retire hJ hx) hpart (fun w' hw' => ?_) (fun y hy => ?_) (.inr hne) _
    · obtain ⟨w₀, hw₀, rfl⟩ := Scope.exists_of_vars_retire hw'
      cases hx.symm.trans hw₀
      exact Scope.declared_redirect.trans hw
    · rcases Term.mem_freeVars_rename hy with rfl | ⟨hy, -⟩
      · exact hh.temporary (Scope.exists_temporary_retire ..)
      · exact hh.names (hm y hy) (.retire ..) (Nat.le_succ _)
  · exact hh.introduce hJ hpart (fun w hw => (by cases hx.symm.trans hw)) hm (.inl hx) _

mutual

theorem keeps_meaning (hh : Hereditary parts J N) (e : Expr) {st st' : State σ} {m : Meaning}
    (hJ : J ctx st.scope st.made) (h : Gives (meaning answer ctx e) st m st') :
    J ctx st'.scope st'.made ∧ ∀ y ∈ m.term.freeVars, N st'.scope st'.made y := by
  cases e with
  | num loc n | bool loc b =>
    rw [meaning, gives_pure] at h
    obtain ⟨rfl, rfl⟩ := h
    exact ⟨hJ, fun y hy => (by cases hy)⟩
  | ident loc x =>
    simp only [meaning, gives_bind, gives_getScope] at h
    obtain ⟨_, _, ⟨rfl, rfl⟩, h⟩ := h
    split at h
    next w hx =>
      obtain ⟨rfl, rfl⟩ := gives_pure.1 h
      refine ⟨hJ, fun y hy => ?_⟩
      rw [List.mem_singleton.1 hy]
      exact hh.var hJ hx
    next => exact absurd h gives_throw
  | call loc f es =>
    simp only [meaning, gives_bind, gives_ofExcept, gives_freshTemporary, gives_modifyScope, gives_pure] at h
    obtain ⟨s, _, ⟨hs, rfl⟩, terms, st₁, hargs, _, _, ⟨rfl, rfl⟩, _, _, rfl, rfl, rfl⟩ := h
    obtain ⟨hs, hcount⟩ := gives_signatureFor hs
    obtain ⟨hJ₁, hterms⟩ := keeps_checkArgs hh es hJ (.nil _) hcount.symm hargs
    rw [Nat.zero_add] at hterms
    refine ⟨hh.returned hJ₁ hs hterms, fun y hy => ?_⟩
    rw [List.mem_singleton.1 hy]
    exact hh.temporary (Scope.exists_temporary_addTemporary ..)
  | binary loc op l r =>
    simp only [meaning, gives_bind, gives_ofExcept, gives_pure] at h
    obtain ⟨left, st₁, hl, right, st₂, hr, base, _, ⟨-, rfl⟩, rfl, rfl⟩ := h
    obtain ⟨hJ₁, hleft⟩ := keeps_meaning hh l hJ hl
    obtain ⟨hJ₂, hright⟩ := keeps_meaning hh r hJ₁ hr
    obtain ⟨hadds, hadv⟩ := advances_meaning r hr
    refine ⟨hJ₂, fun y hy => ?_⟩
    rcases Term.mem_freeVars_binary.1 hy with hy | hy
    · exact hh.names (hleft y hy) hadds.within hadv.made
    · exact hright y hy
  | unary loc op e =>
    simp only [meaning, gives_bind, gives_ofExcept, gives_pure] at h
    obtain ⟨inner, st₁, he, _, _, ⟨-, rfl⟩, rfl, rfl⟩ := h
    obtain ⟨hJ₁, hinner⟩ := keeps_meaning hh e hJ he
    exact ⟨hJ₁, hinner⟩
  | malformed loc kind =>
    rw [meaning] at h
    exact absurd h gives_throw

theorem keeps_checkArgs (hh : Hereditary parts J N) (es : List Expr) {st st' : State σ} {position : Nat}
    {earlier terms : NameMap Term} {params : List RefinedType} (hJ : J ctx st.scope st.made)
    (hearlier : Supplies (N st.scope st.made) earlier position) (hcount : es.length = params.length)
    (h : Gives (checkArgs answer ctx position earlier es params) st terms st') :
    J ctx st'.scope st'.made ∧ Supplies (N st'.scope st'.made) terms (position + params.length) := by
  match es, params with
  | [], [] =>
    rw [checkArgs, gives_pure] at h
    · obtain ⟨rfl, rfl⟩ := h
      exact ⟨hJ, hearlier⟩
    · rintro _ _ _ _ ⟨⟩
  | e :: es, param :: params =>
    simp only [checkArgs, gives_bind] at h
    obtain ⟨actual, st₁, he, _, st₂, hsub, h⟩ := h
    obtain ⟨hJ₁, hterm⟩ := keeps_meaning hh e hJ he
    obtain ⟨hadds, hadv⟩ := advances_meaning e he
    obtain ⟨-, hadds', hadv'⟩ := advances_checkSubtype hsub
    have hlater : ∀ y, N st₁.scope st₁.made y → N st₂.scope st₂.made y :=
      fun y hy => hh.names hy hadds'.within hadv'.made
    have hsupplies : Supplies (N st₂.scope st₂.made) earlier position :=
      hearlier.mono fun y hy => hlater y (hh.names hy hadds.within hadv.made)
    obtain ⟨hJ₂, hterms⟩ := keeps_checkArgs hh es (keeps_checkSubtype hJ₁ hsub)
      (hsupplies.insert fun y hy => hlater y (hterm y hy)) (Nat.succ.inj hcount) h
    rw [List.length_cons, Nat.add_comm params.length, ← Nat.add_assoc]
    exact ⟨hJ₂, hterms⟩

end

/-- What is in scope after a statement does not depend on its blocks, whose scopes are left behind. -/
theorem keeps_checkStmt (hh : Hereditary parts J N) {s : Stmt} {u : Unit} (hparts : s.parts ⊆ parts)
    (hJ : J ctx st.scope st.made) (h : Gives (checkStmt answer ctx s) st u st') : J ctx st'.scope st'.made := by
  cases s with
  | declare d | brk loc | cont loc =>
    rw [checkStmt, gives_pure] at h
    obtain ⟨-, rfl⟩ := h
    exact hJ
  | funDef loc f params body =>
    have hadv := advances_checkStmt _ h
    obtain ⟨s, st₁, -, -, rfl⟩ := gives_funDef h
    exact hh.later hJ hadv.made
  | branch loc c ts es =>
    obtain ⟨m, st₁, st₂, st₃, hc, hts, hes, hretire⟩ := gives_branch h
    obtain ⟨hJ₁, -⟩ := keeps_meaning hh c hJ hc
    have hmade : st₁.made ≤ st₃.made := Nat.le_trans (advances_checkAll ts hts).made (advances_checkAll es hes).made
    have hJ₃ : J ctx st₁.scope st₃.made := hh.later hJ₁ hmade
    exact hh.keeps_retireAll hJ₃ hretire
  | loop loc c body =>
    rw [checkStmt] at h
    exact absurd h gives_throw
  | ret loc value =>
    obtain ⟨-, rfl⟩ | ⟨expected, e, m, st₁, -, -, he, hsub⟩ := gives_ret h
    · exact hJ
    · exact keeps_checkSubtype (keeps_meaning hh e hJ he).1 hsub
  | assign loc x e =>
    obtain ⟨m, st₁, he, hstore⟩ := gives_assign h
    obtain ⟨hJ₁, hm⟩ := keeps_meaning hh e hJ he
    exact hh.keeps_store (hparts (List.mem_singleton_self _)) hJ₁ hm hstore
  | expr loc e =>
    simp only [checkStmt, gives_bind, gives_pure] at h
    obtain ⟨m, st₁, he, -, rfl⟩ := h
    exact (keeps_meaning hh e hJ he).1
  | malformed loc kind =>
    rw [checkStmt] at h
    exact absurd h gives_throw

/-! ### Points -/

/-- One step from task to task keeps the property. -/
theorem keeps_leads (hh : Hereditary parts J N) {p q : Point σ} (h : Leads answer p q)
    (hp : p.task.Within parts ∧ J p.ctx p.st.scope p.st.made) :
    q.task.Within parts ∧ J q.ctx q.st.scope q.st.made := by
  obtain ⟨hparts, hJ⟩ := hp
  cases h with
  | first => exact ⟨fun s hs => hparts (List.mem_append_left _ hs), hJ⟩
  | rest hs =>
    exact ⟨fun s hs => hparts (List.mem_append_right _ hs),
      hh.keeps_checkStmt (fun s hs => hparts (List.mem_append_left _ hs)) hJ hs⟩
  | body hs =>
    obtain ⟨hs, hcount⟩ := gives_signatureFor hs
    exact ⟨fun s hs => hparts (List.mem_cons_of_mem _ hs), hh.body hJ (hparts List.mem_cons_self) hs hcount⟩
  | thenBlock hc _ =>
    obtain ⟨hJ₁, hm⟩ := hh.keeps_meaning _ hJ hc
    exact ⟨fun s hs => hparts (List.mem_cons_of_mem _ (List.mem_append_left _ hs)), hh.condition hJ₁ hm⟩
  | elseBlock hc _ hts =>
    obtain ⟨hJ₁, hm⟩ := hh.keeps_meaning _ hJ hc
    have hmade := (advances_checkAll _ hts).made
    exact ⟨fun s hs => hparts (List.mem_cons_of_mem _ (List.mem_append_right _ hs)),
      hh.condition (hh.later hJ₁ hmade) fun y hy => hh.names (hm y hy) (.refl _) hmade⟩
  | join hc _ hts hes =>
    have hmade := Nat.le_trans (advances_checkAll _ hts).made (advances_checkAll _ hes).made
    exact ⟨trivial, hh.later (hh.keeps_meaning _ hJ hc).1 hmade⟩
  | store _ he => exact ⟨trivial, (hh.keeps_meaning _ hJ he).1⟩
  | result hs hargs =>
    obtain ⟨-, hcount⟩ := gives_signatureFor hs
    exact ⟨trivial, (hh.keeps_checkArgs _ hJ (.nil _) hcount.symm hargs).1⟩
  | right hl => exact ⟨trivial, (hh.keeps_meaning _ hJ hl).1⟩
  | laterArgs he hsub => exact ⟨trivial, keeps_checkSubtype (hh.keeps_meaning _ hJ he).1 hsub⟩
  | overwrite _ hsub => exact ⟨trivial, keeps_checkSubtype hJ hsub⟩
  | retireRest hx => exact ⟨trivial, hh.keeps_retire hJ hx⟩
  | condition | returned | assigned | expr | args | left | operand | arg | replace | retireFirst | create =>
    exact ⟨trivial, hJ⟩

/-- The property holds at all points of the check of a program, if it does at the start. -/
theorem holds_of_reaches (hh : Hereditary parts J N) {p q : Point σ} (h : Reaches answer p q)
    (hp : p.task.Within parts) (hJ : J p.ctx p.st.scope p.st.made) :
    q.task.Within parts ∧ J q.ctx q.st.scope q.st.made := by
  induction h with
  | refl => exact ⟨hp, hJ⟩
  | tail _ hlead ih => exact hh.keeps_leads hlead ih

end Hereditary

end Liquid

end LayerCheck
