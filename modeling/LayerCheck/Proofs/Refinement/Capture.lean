import Mathlib
import LayerCheck.Proofs.Refinement.ArgumentMeaning

/-! Substitution without capture. Once terms for positional names are put into a refined type, its predicate says of a
value what it said where those names have the values of the terms, whatever names the terms mention. The bound name is
one of the names that may be mentioned; it gives way to another exactly when a term that is put in mentions it. -/
namespace LayerCheck

/-! ### Environments with terms for names -/

namespace Env

/-- The values of some of the terms of a map, by their names. -/
theorem get?_filterMap {m : NameMap Term} (hs : m.Sorted) (value : Term → Option Value) (x : String) :
    get? (m.filterMap fun p => (value p.2).map (p.1, ·)) x = (m.get? x).bind value := by
  induction m with
  | nil => rfl
  | cons p m ih =>
    obtain ⟨hp, hs⟩ := List.pairwise_cons.1 hs
    rw [List.filterMap_cons, NameMap.get?_cons]
    by_cases hx : x = p.1
    · have hrest : get? (m.filterMap fun p => (value p.2).map (p.1, ·)) x = none := by
        rw [ih hs, NameMap.absent_of_lt hp hx, Option.bind_none]
      rw [if_pos hx, Option.bind_some]
      cases value p.2 with
      | none => exact hrest
      | some v =>
        rw [Option.map_some]
        dsimp only
        rw [get?_cons, hrest, if_pos hx.symm, Option.none_or]
    · rw [if_neg hx, ← ih hs]
      cases value p.2 with
      | none => rfl
      | some v =>
        rw [Option.map_some]
        dsimp only
        rw [get?_cons, if_neg (Ne.symm hx), Option.or_none]

/-- The environment in which names have the values of terms. A name whose term has no value has none. -/
def filled (env : Env) (w : Width) (m : NameMap Term) : Env :=
  env.filter (fun p => !m.contains p.1) ++ m.filterMap fun p => (p.2.eval w env).toOption.map (p.1, ·)

theorem get?_filled {m : NameMap Term} (hs : m.Sorted) (env : Env) (w : Width) (x : String) :
    (env.filled w m).get? x = (((m.get? x).getD (.var x)).eval w env).toOption := by
  rw [filled, get?_append, get?_filterMap hs fun t => (t.eval w env).toOption, get?_filter env fun x => !m.contains x,
    NameMap.contains]
  cases m.get? x with
  | none => exact (Term.toOption_eval_var w env x).symm
  | some t => exact Option.or_none

end Env

theorem Canonical.isName_boundName (n : Nat) : isName (boundName n) = false := by
  match n with
  | 0 | 1 => rfl
  | n + 2 =>
    rw [isName, toList_boundName_add_two]
    rfl

/-! ### One predicate -/

namespace Refinement

variable {r : Refinement} {m : NameMap Term} {name : String}

/-- What is put in for a name has the value that the name is to have: a bound name the given one, and other names those
that they have outside of the type. -/
theorem eval_filling (hfree : ¬ r.Receives m name) (hname : name = r.name ∨ name ∉ r.predicate.freeVars) (w : Width)
    (env : Env) (v : Value) {x : String} (hx : x ∈ r.predicate.freeVars) :
    ((r.filling name m x).getD (.var x)).eval w (env ++ [(name, v)]) =
      if x = r.name then .ok v else ((m.get? x).getD (.var x)).eval w env := by
  have outside {t : Term} (ht : name ∉ t.freeVars) : t.eval w (env ++ [(name, v)]) = t.eval w env := by
    refine Term.eval_congr fun y hy => ?_
    have hne : name ≠ y := fun heq => ht (heq ▸ hy)
    rw [Env.get?_append, Env.get?_cons, if_neg hne]
    rfl
  rw [filling]
  split
  next =>
    rw [Option.getD_some, Term.eval, Env.get?_append, Env.get?_cons, if_pos rfl]
    rfl
  next hxr =>
    refine outside fun hmem => ?_
    cases ht : m.get? x with
    | none =>
      rw [ht] at hmem
      obtain rfl : name = x := List.mem_singleton.1 hmem
      exact hname.elim hxr fun h => h hx
    | some t =>
      rw [ht] at hmem
      exact hfree ⟨x, t, hx, hxr, ht, hmem⟩

theorem get?_filled_bound (hs : m.Sorted) (w : Width) (env : Env) (v : Value) (x : String) :
    (env.filled w m ++ [(r.name, v)]).get? x =
      if x = r.name then some v else (((m.get? x).getD (.var x)).eval w env).toOption := by
  rw [Env.get?_append, Env.get?_cons, Env.get?_filled hs]
  by_cases hx : x = r.name
  · rw [if_pos hx, if_pos hx.symm]
    rfl
  · rw [if_neg hx, if_neg (Ne.symm hx)]
    rfl

theorem toOption_eval_subst_filling (hs : m.Sorted) (hfree : ¬ r.Receives m name)
    (hname : name = r.name ∨ name ∉ r.predicate.freeVars) (w : Width) (env : Env) (v : Value) :
    ((r.predicate.subst (r.filling name m)).eval w (env ++ [(name, v)])).toOption =
      (r.predicate.eval w (env.filled w m ++ [(r.name, v)])).toOption := by
  refine Term.toOption_eval_subst fun x hx => ?_
  rw [eval_filling hfree hname w env v hx, get?_filled_bound hs]
  split <;> rfl

/-- Where the terms put in have values, errors are kept as well. -/
theorem eval_subst_filling (hs : m.Sorted) (hfree : ¬ r.Receives m name)
    (hname : name = r.name ∨ name ∉ r.predicate.freeVars) {w : Width} {env : Env}
    (hvalues : ∀ x ∈ r.predicate.freeVars, x ≠ r.name → ∀ t, m.get? x = some t → ∃ u, t.eval w env = .ok u)
    (v : Value) :
    (r.predicate.subst (r.filling name m)).eval w (env ++ [(name, v)]) =
      (r.predicate.eval w (env.filled w m ++ [(r.name, v)])).mapError (·.subst (r.filling name m)) := by
  refine Term.eval_subst fun x hx => ?_
  rw [eval_filling hfree hname w env v hx, Term.eval, get?_filled_bound hs]
  split
  next => rfl
  next hxr =>
    cases ht : m.get? x with
    | none =>
      rw [Option.getD_none, Term.eval]
      cases env.get? x <;> rfl
    | some t =>
      obtain ⟨u, hu⟩ := hvalues x hx hxr t ht
      rw [Option.getD_some, hu]
      rfl

theorem receives_of_mem_incoming (hs : m.Sorted) {y : String}
    (h : y ∈ RefinedType.incoming (m.erase r.name) r.predicate) : r.Receives m y := by
  rw [RefinedType.incoming, NameSet.mem_ofList] at h
  obtain ⟨⟨x, t⟩, hmem, hy⟩ := List.mem_flatMap.1 h
  obtain ⟨herase, hx⟩ := List.mem_filter.1 hmem
  obtain ⟨hm, hne⟩ := List.mem_filter.1 herase
  exact ⟨x, t, List.contains_iff_mem.1 hx, bne_iff_ne.1 hne, hs.get? hm, hy⟩

end Refinement

/-! ### Types -/

namespace RefinedType

/-- The name that a type binds. -/
def bound? (ty : RefinedType) : Option String := ty.refinement.map (·.name)

/-- The terms of a map that take the place of variables of a type have values. -/
def Fillable (ty : RefinedType) (w : Width) (env : Env) (m : NameMap Term) : Prop :=
  ∀ x t, ty.Mentions x → m.get? x = some t → ∃ u, t.eval w env = .ok u

variable {m : NameMap Term} {ty : RefinedType}

theorem bound?_subst_ne (hs : m.Sorted) (hm : ∀ n, m.get? (boundName n) = none) :
    (ty.subst m).bound? ≠ ty.bound? ↔ ∃ r, ty.refinement = some r ∧ r.Receives m r.name := by
  cases hr : ty.refinement with
  | none =>
    rw [subst_of_none hr]
    refine ⟨fun hne => absurd rfl hne, ?_⟩
    rintro ⟨r, hr', -⟩
    cases hr'
  | some r =>
    obtain ⟨name, heq, hfree, hfresh⟩ := exists_subst_eq hm hr
    have hbound : (ty.subst m).bound? ≠ ty.bound? ↔ name ≠ r.name := by
      rw [heq, bound?, bound?, hr]
      simp [refined]
    rw [hbound]
    constructor
    · intro hne
      exact ⟨r, rfl, Refinement.receives_of_mem_incoming hs (hfresh.resolve_left hne).1⟩
    · rintro ⟨r', hr', hcaptured⟩ rfl
      cases hr'
      exact hfree hcaptured

theorem toOption_test_subst (hs : m.Sorted) (hm : ∀ n, m.get? (boundName n) = none) (w : Width) (env : Env)
    (v : Value) : ((ty.subst m).test w env v).toOption = (ty.test w (env.filled w m) v).toOption := by
  cases hr : ty.refinement with
  | none => rw [subst_of_none hr, test, test, hr]
  | some r =>
    obtain ⟨name, heq, hfree, hfresh⟩ := exists_subst_eq hm hr
    rw [heq, test, test, hr]
    exact r.toOption_eval_subst_filling hs hfree (hfresh.imp_right fun h => h.2.1) w env v

theorem exists_test_subst (hs : m.Sorted) (hm : ∀ n, m.get? (boundName n) = none) : ∃ σ, ∀ w env v,
    ty.Fillable w env m → (ty.subst m).test w env v = (ty.test w (env.filled w m) v).mapError (·.subst σ) := by
  cases hr : ty.refinement with
  | none =>
    refine ⟨fun _ => none, fun w env v _ => ?_⟩
    rw [subst_of_none hr, test, test, hr]
    rfl
  | some r =>
    obtain ⟨name, heq, hfree, hfresh⟩ := exists_subst_eq hm hr
    refine ⟨r.filling name m, fun w env v hvalues => ?_⟩
    rw [heq, test, test, hr]
    exact r.eval_subst_filling hs hfree (hfresh.imp_right fun h => h.2.1)
      (fun x hx hne t ht => hvalues x t ⟨r, hr, hx, hne⟩ ht) v

/-- Putting terms for positional names into a type never captures. The base type stays, and the bound name changes
exactly when a term that is put in mentions it. The predicate evaluates on a value as it did where each of the other
names of the map has the value of its term, and where those terms have values, errors are kept as well. -/
theorem subst_without_capture {m : NameMap Term} (hs : m.Sorted) (hkeys : ∀ x ∈ m.keys, Canonical.isName x = true)
    (ty : RefinedType) :
    (ty.subst m).base = ty.base ∧
    ((ty.subst m).bound? ≠ ty.bound? ↔ ∃ r, ty.refinement = some r ∧ r.Receives m r.name) ∧
    (∀ w env v, ((ty.subst m).test w env v).toOption = (ty.test w (env.filled w m) v).toOption) ∧
    ∃ σ, ∀ w env v, ty.Fillable w env m →
      (ty.subst m).test w env v = (ty.test w (env.filled w m) v).mapError (·.subst σ) := by
  have hm (n : Nat) : m.get? (boundName n) = none := by
    cases hn : m.get? (boundName n) with
    | none => rfl
    | some t =>
      have hname := hkeys _ (List.mem_map_of_mem (NameMap.mem_of_get? hn))
      rw [Canonical.isName_boundName] at hname
      cases hname
  exact ⟨base_subst m ty, bound?_subst_ne hs hm, toOption_test_subst hs hm, exists_test_subst hs hm⟩

/-- A type that binds the name of the second argument and mentions the first choice of a spare name. -/
def crowded : RefinedType :=
  refined .int "$arg1" (.binary .gt (.var "$arg1") (.binary .add (.var "$arg0") (.var "v")))

/-- Terms for two arguments, of which the first mentions the bound name and the second choice of a spare name. -/
def crowdedTerms : NameMap Term := [("$arg0", .binary .mul (.var "$arg1") (.var "$v")), ("$arg1", .int 3)]

theorem crowded_subst : crowdedTerms.Sorted ∧ (∀ x ∈ crowdedTerms.keys, Canonical.isName x = true) ∧
    crowded.subst crowdedTerms = refined .int "$v1" (.binary .gt (.var "$v1")
      (.binary .add (.binary .mul (.var "$arg1") (.var "$v")) (.var "v"))) ∧
    ∀ a b c d : Int, ((crowded.subst crowdedTerms).test .unbounded
        [("$arg1", .int a), ("$v", .int b), ("v", .int c)] (.int d)).toOption =
      (crowded.test .unbounded [("$v", .int b), ("v", .int c), ("$arg0", .int (a * b)), ("$arg1", .int 3)]
        (.int d)).toOption := by
  have hs : crowdedTerms.Sorted := by
    simp only [NameMap.Sorted, crowdedTerms]
    decide
  have hkeys : ∀ x ∈ crowdedTerms.keys, Canonical.isName x = true := by
    simp only [crowdedTerms, NameMap.keys]
    decide
  obtain ⟨-, -, hvalue, -⟩ := subst_without_capture hs hkeys crowded
  refine ⟨hs, hkeys, by cbv, fun a b c d => ?_⟩
  exact hvalue .unbounded [("$arg1", .int a), ("$v", .int b), ("v", .int c)] (.int d)

end RefinedType

end LayerCheck
