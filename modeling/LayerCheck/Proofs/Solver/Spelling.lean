import Mathlib
import LayerCheck.Proofs.Solver.Rendering
import LayerCheck.Proofs.Solver.Search
import LayerCheck.Proofs.Term.Denotation

/-! How small negations are spelled makes no difference to the solver. A literal and a minus sign in front of one have
the same value and the same linear form, and the literals of both spellings lie in the window of integers that are
tried anyway. Errors may tell the spellings apart, answers do not. -/
namespace LayerCheck

variable {V : Int → Prop}

/-! ### Terms -/

namespace Term

variable {t t' : Term}

theorem eval_neg_int {n : Int} (h : fits64 (-n) = true) (w : Width) (env : Env) :
    (unary .neg (int n)).eval w env = .ok (.int (-n)) := by
  have hadmits : w.admits (-n) = true := by
    cases w with
    | word => exact h
    | unbounded => rfl
  exact if_pos hadmits

namespace Alike

theorem toOption_eval (h : Alike V t t') (hV : ∀ n, 0 < n → V n → fits64 (-n) = true) (w : Width) (env : Env) :
    (t.eval w env).toOption = (t'.eval w env).toOption := by
  induction h with
  | var | int | bool => rfl
  | @unary op t t' _ ih =>
    cases op <;> simp only [eval, toOption_bind, ih] <;>
      rcases (t'.eval w env).toOption with _ | _ | _ <;> first | rfl | exact toOption_produced ..
  | @binary op l l' r r' _ _ ihl ihr =>
    cases op <;> simp only [eval, toOption_bind, apply_ite Except.toOption, ihl, ihr] <;>
      rcases (l'.eval w env).toOption with _ | _ | _ | _ <;>
      rcases (r'.eval w env).toOption with _ | _ | _ | _ <;> first | rfl | exact toOption_arith ..
  | unfold hn hVn => rw [eval_neg_int (hV _ hn hVn), eval]
  | fold hn hVn => rw [eval_neg_int (hV _ hn hVn), eval]

theorem toOption_evalBool (h : Alike V t t') (hV : ∀ n, 0 < n → V n → fits64 (-n) = true) (w : Width) (env : Env) :
    (t.evalBool w env).toOption = (t'.evalBool w env).toOption := by
  rw [evalBool, evalBool, toOption_bind, toOption_bind, h.toOption_eval hV]
  rcases (t'.eval w env).toOption with _ | _ | _ <;> rfl

theorem freeVars_eq (h : Alike V t t') : t.freeVars = t'.freeVars := by
  induction h with
  | var | int | bool | unfold | fold => rfl
  | unary op _ ih => exact ih
  | binary op _ _ ihl ihr => rw [freeVars, freeVars, ihl, ihr]

theorem subst (h : Alike V t t') {σ σ' : String → Option Term} (hσ : ∀ x, Option.Rel (Alike V) (σ x) (σ' x)) :
    Alike V (t.subst σ) (t'.subst σ') := by
  induction h with
  | var x =>
    have hx := hσ x
    rw [Term.subst, Term.subst]
    generalize σ x = d, σ' x = d' at hx
    cases hx with
    | some hd => exact hd
    | none => exact .var x
  | int n => exact .int n
  | bool b => exact .bool b
  | unary op _ ih => exact .unary op ih
  | binary op _ _ ihl ihr => exact .binary op ihl ihr
  | unfold hn hVn => exact .unfold hn hVn
  | fold hn hVn => exact .fold hn hVn

theorem conjuncts (h : Alike V t t') : List.Forall₂ (Alike V) t.conjuncts t'.conjuncts := by
  induction h with
  | var x => exact .cons (.var x) .nil
  | int n => exact .cons (.int n) .nil
  | bool b =>
    cases b with
    | true => exact .nil
    | false => exact .cons (.bool false) .nil
  | unary op h _ => exact .cons (.unary op h) .nil
  | binary op hl hr ihl ihr =>
    cases op with
    | and => exact List.rel_append ihl ihr
    | _ => exact .cons (.binary _ hl hr) .nil
  | unfold hn hVn => exact .cons (.unfold hn hVn) .nil
  | fold hn hVn => exact .cons (.fold hn hVn) .nil

/-- A literal of one spelling that the other does not have is a number in `V` or the negation of one. -/
theorem mem_literals (h : Alike V t t') {m : Int} (hm : m ∈ t.literals) :
    m ∈ t'.literals ∨ ∃ n, 0 < n ∧ V n ∧ (m = n ∨ m = -n) := by
  induction h with
  | var | int | bool => exact .inl hm
  | unary op _ ih => exact ih hm
  | binary op _ _ ihl ihr =>
    rcases List.mem_append.1 hm with hm | hm
    · exact (ihl hm).imp_left (List.mem_append_left _)
    · exact (ihr hm).imp_left (List.mem_append_right _)
  | unfold hn hVn => exact .inr ⟨_, hn, hVn, .inr (List.mem_singleton.1 hm)⟩
  | fold hn hVn => exact .inr ⟨_, hn, hVn, .inl (List.mem_singleton.1 hm)⟩

theorem ofTerm?_eq (h : Alike V t t') (hV : ∀ n, 0 < n → V n → fits64 (-n) = true) (flags : List String) :
    Linear.ofTerm? flags t = Linear.ofTerm? flags t' := by
  have hneg : ∀ {n : Int}, 0 < n → V n → Linear.ofTerm? flags (.unary .neg (.int n)) = some (.const (-n)) := by
    intro n hn hVn
    have hfits := fits64_iff.1 (hV n hn hVn)
    have hword : word128 (-n) = some (-n) := if_pos (fits128_iff.2 (by omega))
    change (Linear.const 0).addScaled (.const n) (-1) = _
    simp [Linear.addScaled, Linear.const, Linear.addCoefficients, hword]
  induction h with
  | var | int | bool => rfl
  | unary op _ ih =>
    cases op with
    | not => rfl
    | neg => rw [Linear.ofTerm?, Linear.ofTerm?, ih]
  | binary op _ _ ihl ihr => cases op <;> first | rfl | rw [Linear.ofTerm?, Linear.ofTerm?, ihl, ihr]
  | unfold hn hVn => rw [hneg hn hVn, Linear.ofTerm?]
  | fold hn hVn => rw [hneg hn hVn, Linear.ofTerm?]

theorem isBoolean_eq (h : Alike V t t') (flags : List String) :
    Cases.isBoolean flags t = Cases.isBoolean flags t' := by
  cases h <;> rfl

theorem cases_eq (h : Alike V t t') (hV : ∀ n, 0 < n → V n → fits64 (-n) = true) (flags : List String)
    (positive : Bool) :
    Cases.ofTerm? flags t positive = Cases.ofTerm? flags t' positive := by
  induction h generalizing positive with
  | var | int | bool | unfold | fold => rfl
  | unary op _ ih =>
    cases op with
    | not => exact ih _
    | neg => rfl
  | @binary op l l' r r' hl hr ihl ihr =>
    have hcomparison : ∀ op', Cases.comparison? flags op' l r = Cases.comparison? flags op' l' r' := by
      intro op'
      rw [Cases.comparison?, hl.ofTerm?_eq hV, hr.ofTerm?_eq hV, ← Cases.comparison?]
    cases op <;>
      simp only [Cases.ofTerm?, ihl, ihr, hl.isBoolean_eq flags, hcomparison]

end Alike

end Term

/-! ### Elimination of bindings -/

namespace Query

variable {q q' : Query}

/-- Definitions of one variable by terms that are alike. -/
def Definition.Alike (V : Int → Prop) (d d' : Definition) : Prop := d.name = d'.name ∧ d.value.Alike V d'.value

theorem definition?_alike (bound : List Binding) {l l' r r' : Term} (hl : l.Alike V l') (hr : r.Alike V r') :
    Option.Rel (Definition.Alike V) (definition? bound l r) (definition? bound l' r') := by
  cases hl with
  | var x =>
    rw [definition?, definition?, hr.freeVars_eq]
    split
    · exact .some ⟨rfl, hr⟩
    · exact .none
  | _ => exact .none

theorem definitionOf?_alike (bound : List Binding) {p p' : Term} (h : p.Alike V p') :
    Option.Rel (Definition.Alike V) (definitionOf? bound p) (definitionOf? bound p') := by
  cases h with
  | @binary op l l' r r' hl hr =>
    cases op with
    | eq =>
      have hlr := definition?_alike bound hl hr
      have hrl := definition?_alike bound hr hl
      rw [definitionOf?, definitionOf?]
      generalize definition? bound l r = d, definition? bound l' r' = d' at hlr
      cases hlr with
      | some h => exact .some h
      | none => exact hrl
    | _ => exact .none
  | _ => exact .none

/-- The premises are alike before and after a definition is taken out. -/
theorem takeDefinition?_alike (bound : List Binding) {ps ps' : List Term}
    (h : List.Forall₂ (Term.Alike V) ps ps') :
    Option.Rel (fun x x' => Definition.Alike V x.1 x'.1 ∧ List.Forall₂ (Term.Alike V) x.2 x'.2)
      (takeDefinition? bound ps) (takeDefinition? bound ps') := by
  induction h with
  | nil => exact .none
  | @cons p p' ps ps' hp hps ih =>
    have hd := definitionOf?_alike bound hp
    rw [takeDefinition?, takeDefinition?]
    generalize definitionOf? bound p = d, definitionOf? bound p' = d' at hd
    generalize takeDefinition? bound ps = r, takeDefinition? bound ps' = r' at ih
    cases hd with
    | some hd => exact .some ⟨hd, hps⟩
    | none =>
      cases ih with
      | some hrest => exact .some ⟨hrest.1, .cons hp hrest.2⟩
      | none => exact .none

theorem inlineAll_of_none (h : takeDefinition? q.bindings q.premises = none) : q.inlineAll = q := by
  rw [inlineAll]
  split
  next => rfl
  next hsome => cases h.symm.trans hsome

theorem inlineAll_of_some {d : Definition} {rest : List Term}
    (h : takeDefinition? q.bindings q.premises = some (d, rest)) :
    q.inlineAll = (inline { q with premises := rest } d).inlineAll := by
  rw [inlineAll]
  split
  next hnone => cases h.symm.trans hnone
  next hsome =>
    cases h.symm.trans hsome
    rfl

namespace Alike

theorem inline (h : Alike V q q') {d d' : Definition} (hd : d.Alike V d') : Alike V (q.inline d) (q'.inline d') := by
  have hσ : ∀ x, Option.Rel (Term.Alike V) (Term.single d.name d.value x) (Term.single d'.name d'.value x) := by
    intro x
    rw [Term.single, Term.single, hd.1]
    split
    · exact .some hd.2
    · exact .none
  refine ⟨?_, ?_, h.conclusion.subst hσ⟩
  · change List.filter _ _ = List.filter _ _
    rw [h.bindings, hd.1]
  · exact List.rel_map (R := Term.Alike V) (fun _ _ hp => hp.subst hσ) h.premises

theorem inlineAll (h : Alike V q q') : Alike V q.inlineAll q'.inlineAll := by
  fun_induction Query.inlineAll q generalizing q' with
  | case1 q hnone =>
    have htake := takeDefinition?_alike q.bindings h.premises
    rw [hnone, h.bindings] at htake
    cases hq' : takeDefinition? q'.bindings q'.premises with
    | none => rwa [inlineAll_of_none hq']
    | some =>
      rw [hq'] at htake
      cases htake
  | case2 q d rest hsome ih =>
    have htake := takeDefinition?_alike q.bindings h.premises
    rw [hsome, h.bindings] at htake
    cases hq' : takeDefinition? q'.bindings q'.premises with
    | none =>
      rw [hq'] at htake
      cases htake
    | some taken =>
      rw [hq'] at htake
      cases htake with
      | some hpair =>
        have hrest : Alike V { q with premises := rest } { q' with premises := taken.2 } :=
          ⟨h.bindings, hpair.2, h.conclusion⟩
        rw [inlineAll_of_some hq']
        exact ih (hrest.inline hpair.1)

theorem eliminate (h : Alike V q q') : Alike V q.eliminate q'.eliminate := by
  have hpremises := List.rel_flatMap (P := Term.Alike V) h.premises fun _ _ hp => hp.conjuncts
  exact inlineAll ⟨h.bindings, hpremises, h.conclusion⟩

theorem mem_literals_premises {ps ps' : List Term} (h : List.Forall₂ (Term.Alike V) ps ps') {m : Int}
    (hm : m ∈ ps.flatMap Term.literals) :
    m ∈ ps'.flatMap Term.literals ∨ ∃ n, 0 < n ∧ V n ∧ (m = n ∨ m = -n) := by
  induction h with
  | nil => exact .inl hm
  | cons hp _ ih =>
    rcases List.mem_append.1 hm with hm | hm
    · exact (hp.mem_literals hm).imp_left (List.mem_append_left _)
    · exact (ih hm).imp_left (List.mem_append_right _)

theorem mem_literals (h : Alike V q q') {m : Int} (hm : m ∈ q.literals) :
    m ∈ q'.literals ∨ ∃ n, 0 < n ∧ V n ∧ (m = n ∨ m = -n) := by
  rcases List.mem_append.1 hm with hm | hm
  · exact (mem_literals_premises h.premises hm).imp_left (List.mem_append_left _)
  · exact (h.conclusion.mem_literals hm).imp_left (List.mem_append_right _)

/-! ### Search -/

theorem toOption_holds (hV : ∀ n, 0 < n → V n → fits64 (-n) = true) {ps ps' : List Term}
    (h : List.Forall₂ (Term.Alike V) ps ps') (w : Width) (env : Env) :
    (holds w env ps).toOption = (holds w env ps').toOption := by
  induction h with
  | nil => rfl
  | cons hp _ ih =>
    simp only [holds, toOption_bind, apply_ite Except.toOption, hp.toOption_evalBool hV, ih]

theorem toOption_refutedBy (h : Alike V q q') (hV : ∀ n, 0 < n → V n → fits64 (-n) = true) (w : Width) (env : Env) :
    (q.refutedBy w env).toOption = (q'.refutedBy w env).toOption := by
  simp only [refutedBy, toOption_bind, apply_ite Except.toOption, toOption_holds hV h.premises,
    h.conclusion.toOption_evalBool hV]

theorem premiseCases_eq (hV : ∀ n, 0 < n → V n → fits64 (-n) = true) (flags : List String) {ps ps' : List Term}
    (h : List.Forall₂ (Term.Alike V) ps ps') (cases : Cases) :
    Refutation.premiseCases flags ps cases = Refutation.premiseCases flags ps' cases := by
  induction h generalizing cases with
  | nil => rfl
  | cons hp _ ih => simp only [Refutation.premiseCases, hp.cases_eq hV, ih]

theorem refutation_eq (h : Alike V q q') (hV : ∀ n, 0 < n → V n → fits64 (-n) = true) :
    Refutation.ofQuery q = Refutation.ofQuery q' := by
  simp only [Refutation.ofQuery, h.bindings, premiseCases_eq hV _ h.premises, h.conclusion.cases_eq hV]

end Alike

end Query

/-! ### Answers -/

namespace Solver

variable {q q' : Query} {s : Solver}

theorem toOption_mapError {ε ε' α : Type} (f : ε → ε') (r : Except ε α) : (r.mapError f).toOption = r.toOption := by
  cases r <;> rfl

theorem toOption_anyM {ε α : Type} {test test' : α → Except ε Bool} (h : ∀ x, (test x).toOption = (test' x).toOption)
    (xs : List α) : (xs.anyM test).toOption = (xs.anyM test').toOption := by
  induction xs with
  | nil => rfl
  | cons x xs ih =>
    have hx := h x
    rw [List.anyM_cons, List.anyM_cons]
    generalize test x = r, test' x = r' at hx
    rcases r with _ | _ | _ <;> rcases r' with _ | _ | _ <;> first | exact ih | exact hx | cases hx

/-- Where a binding has no value to try, a search gives no answer. -/
theorem toOption_hasCounterexample_eq_none {ints : List Int}
    (h : ¬ ∀ b ∈ q.bindings, 0 < sizeOf ints.length b.base) : (hasCounterexample q ints).toOption = none := by
  cases hsearch : hasCounterexample q ints with
  | error e => rfl
  | ok found => exact absurd (sizeOf_pos_of_hasCounterexample hsearch) h

theorem toOption_hasCounterexample
    (h : ∀ env, (q.refutedBy .word env).toOption = (q'.refutedBy .word env).toOption)
    (hbindings : q.bindings = q'.bindings) (ints : List Int) :
    (hasCounterexample q ints).toOption = (hasCounterexample q' ints).toOption := by
  by_cases hpos : ∀ b ∈ q.bindings, 0 < sizeOf ints.length b.base
  · rw [hasCounterexample_eq hpos, hasCounterexample_eq (hbindings ▸ hpos), hbindings]
    exact toOption_anyM (fun env => by rw [toOption_mapError, toOption_mapError, h]) _
  · rw [toOption_hasCounterexample_eq_none hpos, toOption_hasCounterexample_eq_none (hbindings ▸ hpos)]

theorem confirms_eq (h : ∀ env, (q.refutedBy .word env).toOption = (q'.refutedBy .word env).toOption)
    (hbindings : q.bindings = q'.bindings) (m : Model) : confirms q m = confirms q' m := by
  rw [confirms, confirms, hbindings]
  cases envOf? m q'.bindings with
  | none => rfl
  | some env =>
    have henv := h env
    dsimp only
    generalize q.refutedBy .word env = r, q'.refutedBy .word env = r' at henv
    cases r <;> cases r' <;> cases henv <;> rfl

theorem mem_landmarks {x : Int} :
    x ∈ landmarks q ↔ ∃ n ∈ q.literals, x = n ∨ x = clamp64 (n - 1) ∨ x = clamp64 (n + 1) := by
  simp [landmarks, Ascending.mem_ofList]

/-- A landmark that one spelling has and the other has not lies in the window. -/
theorem mem_landmarks_of_alike (h : Query.Alike V q q') (hV : ∀ n, 0 < n → V n → n < s.bound) {x : Int}
    (hx : x ∈ landmarks q) (hout : x < -s.bound ∨ s.bound < x) : x ∈ landmarks q' := by
  obtain ⟨m, hm, hxm⟩ := mem_landmarks.1 hx
  rcases h.mem_literals hm with hm | ⟨n, hn, hVn, hmn⟩
  · exact mem_landmarks.2 ⟨m, hm, hxm⟩
  · have hbound := hV n hn hVn
    simp only [clamp64] at hxm
    omega

theorem filter_landmarks_eq (h : Query.Alike V q q') (hV : ∀ n, 0 < n → V n → n < s.bound) {p : Int → Bool}
    (hp : ∀ x, p x = true → x < -s.bound ∨ s.bound < x) : (landmarks q).filter p = (landmarks q').filter p := by
  have hsorted : ∀ r : Query, ((landmarks r).filter p).Pairwise (· < ·) :=
    fun r => (Ascending.pairwise_ofList _).filter p
  refine (hsorted q).eq_of_mem_iff (hsorted q') fun x => ?_
  rw [List.mem_filter, List.mem_filter]
  exact ⟨fun hx => ⟨mem_landmarks_of_alike h hV hx.1 (hp x hx.2), hx.2⟩,
    fun hx => ⟨mem_landmarks_of_alike h.symm hV hx.1 (hp x hx.2), hx.2⟩⟩

theorem domain_eq (h : Query.Alike V q q') (hV : ∀ n, 0 < n → V n → n < s.bound) : s.domain q = s.domain q' := by
  by_cases hbound : s.bound < 0
  · have heq : q = q' := h.eq fun n hn hVn => by
      have := hV n hn hVn
      omega
    rw [heq]
  · rw [domain, domain, if_neg hbound, if_neg hbound, filter_landmarks_eq h hV fun x hx => .inl (of_decide_eq_true hx),
      filter_landmarks_eq h hV fun x hx => .inr (of_decide_eq_true hx)]

theorem toOption_byRefutation (h : Query.Alike V q q') (hV : ∀ n, 0 < n → V n → fits64 (-n) = true) :
    (byRefutation q).toOption = (byRefutation q').toOption := by
  have hconfirms : confirms q = confirms q' :=
    funext (confirms_eq (fun env => h.toOption_refutedBy hV .word env) h.bindings)
  rw [byRefutation, byRefutation, h.refutation_eq hV, hconfirms]
  cases Refutation.ofQuery q' with
  | unsatisfiable => rfl
  | undecided candidates doubt => simp only [apply_ite Except.toOption]; rfl
  | broken op => rfl

theorem toOption_settleReduced (h : Query.Alike V q q') (hbound : ∀ n, 0 < n → V n → n < s.bound)
    (hfits : ∀ n, 0 < n → V n → fits64 (-n) = true) :
    (s.settleReduced q).toOption = (s.settleReduced q').toOption := by
  have hdomain := domain_eq h hbound
  have hsize : s.domainSize q = s.domainSize q' := by rw [← length_domain, ← length_domain, hdomain]
  have haffordable : s.affordable q (s.domainSize q) = s.affordable q' (s.domainSize q') := by
    rw [affordable, affordable, hsize, h.bindings]
  have hrefutation := toOption_byRefutation h hfits
  rw [settleReduced, settleReduced, haffordable]
  split
  next =>
    have hsearch :=
      toOption_hasCounterexample (fun env => h.toOption_refutedBy hfits .word env) h.bindings (s.domain q')
    simp only [h.bindings, hdomain, toOption_bind, hsearch, apply_ite Except.toOption, hrefutation]
  next => exact hrefutation

/-- Negations of numbers inside the window may be spelled in either way. -/
theorem toOption_settle (h : Query.Alike V q q') (hbound : ∀ n, 0 < n → V n → n < s.bound)
    (hfits : ∀ n, 0 < n → V n → fits64 (-n) = true) : (s.settle q).toOption = (s.settle q').toOption :=
  toOption_settleReduced h.eliminate hbound hfits

end Solver

end LayerCheck
