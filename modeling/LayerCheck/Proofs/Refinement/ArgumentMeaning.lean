import Mathlib
import LayerCheck.Proofs.Refinement.ResultMeaning

/-! What positional names do to the meaning of the arguments. The predicate of an argument may read its own
value and those of earlier arguments by the names that they bind, of one name the nearest. The predicate that is
kept reads them by position and gives the same on all values, errors included. This fails for one reason only: a
predicate mentions a name that is spelled like a positional one and that nothing up to there binds. -/
namespace LayerCheck

/-! ### Errors of rewritten terms -/

/-- The same error about a term after a substitution. -/
def EvalError.subst (σ : String → Option Term) : EvalError → EvalError
  | overflow t => overflow (t.subst σ)
  | notBoolean t => notBoolean (t.subst σ)
  | notInteger t => notInteger (t.subst σ)
  | unbound name => unbound name
  | mixedOperands t => mixedOperands (t.subst σ)

namespace Term

theorem produced_subst (w : Width) (σ : String → Option Term) (t : Term) (n : Int) :
    produced w (t.subst σ) n = (produced w t n).mapError (·.subst σ) := by
  unfold produced
  split <;> rfl

theorem arith_subst (w : Width) (σ : String → Option Term) (t : Term) (op : BinaryOp) (a b : Int) :
    arith w (t.subst σ) op a b = (arith w t op a b).mapError (·.subst σ) := by
  cases op <;> first | exact produced_subst w σ t _ | rfl

/-- Where the terms put in for variables evaluate as those variables do, a term evaluates as before, and its
errors are about the terms that the old ones have become. -/
theorem eval_subst {w : Width} {env env' : Env} {σ : String → Option Term} {t : Term}
    (h : ∀ x ∈ t.freeVars, ((σ x).getD (var x)).eval w env = (var x).eval w env') :
    (t.subst σ).eval w env = (t.eval w env').mapError (·.subst σ) := by
  induction t with
  | var x =>
    rw [subst, h x (List.mem_singleton_self x), eval]
    cases env'.get? x <;> rfl
  | int n => rfl
  | bool b => rfl
  | unary op t ih =>
    cases op <;> simp only [subst, eval, ih h] <;> rcases t.eval w env' with _ | _ | _ <;>
      first | rfl | exact produced_subst w σ (unary .neg t) _
  | binary op l r ihl ihr =>
    simp only [mem_freeVars_binary] at h
    have ihl := ihl fun x hx => h x (.inl hx)
    have ihr := ihr fun x hx => h x (.inr hx)
    cases op <;> simp only [subst, eval, ihl, ihr] <;> rcases l.eval w env' with _ | _ | _ | _ <;>
      rcases r.eval w env' with _ | _ | _ | _ <;> try rfl
    case add.ok.int.ok.int => exact arith_subst w σ (binary .add l r) .add _ _
    case sub.ok.int.ok.int => exact arith_subst w σ (binary .sub l r) .sub _ _
    case mul.ok.int.ok.int => exact arith_subst w σ (binary .mul l r) .mul _ _

end Term

namespace Canonical

open Signature

/-! ### Names and values of arguments -/

/-- Some predicate mentions a name of positional spelling that neither its own argument nor an earlier one
binds. -/
def Collides (args : List (Option Refinement)) (x : String) : Prop :=
  ∃ i r, args[i]? = some (some r) ∧ x ∈ r.predicate.freeVars ∧ isName x = true ∧
    ∀ r', some r' ∈ args.take (i + 1) → r'.name ≠ x

theorem boundValues_nil (args : List (Option Refinement)) : boundValues args [] = [] := by
  rcases args with _ | ⟨_ | r, args⟩ <;> rfl

theorem boundValues_append (args args' : List (Option Refinement)) (vs : List Value) :
    boundValues (args ++ args') vs = boundValues args vs ++ boundValues args' (vs.drop args.length) := by
  induction args generalizing vs with
  | nil => rfl
  | cons arg args ih =>
    obtain _ | ⟨v, vs⟩ := vs
    · simp only [List.drop_nil, boundValues_nil, List.append_nil]
    · cases arg with
      | none => exact ih vs
      | some r => exact congrArg ((r.name, v) :: ·) (ih vs)

/-- Only a name that some argument binds has a value. -/
theorem exists_of_get?_boundValues {args : List (Option Refinement)} {vs : List Value} {x : String} {v : Value}
    (h : (boundValues args vs).get? x = some v) : ∃ r, some r ∈ args ∧ r.name = x := by
  induction args generalizing vs with
  | nil => cases h
  | cons arg args ih =>
    obtain _ | ⟨v', vs⟩ := vs
    · rw [boundValues_nil] at h
      cases h
    have later (h : (boundValues args vs).get? x = some v) : ∃ r, some r ∈ arg :: args ∧ r.name = x := by
      obtain ⟨r, hr, hx⟩ := ih h
      exact ⟨r, List.mem_cons_of_mem _ hr, hx⟩
    cases arg with
    | none => exact later h
    | some r =>
      rw [boundValues, Env.get?_cons, Option.or_eq_some_iff] at h
      rcases h with h | ⟨-, h⟩
      · exact later h
      · split at h
        next hx => exact ⟨r, List.mem_cons_self, hx⟩
        next => cases h

/-! ### The table of the arguments so far -/

/-- A table has the names that some arguments bind, each with the position that has its value. -/
structure Lists (table : NameMap Term) (before : List (Option Refinement)) : Prop where
  bound : ∀ x, table.contains x = true ↔ ∃ r, some r ∈ before ∧ r.name = x
  found : ∀ x t, table.get? x = some t → ∃ i < before.length, t = .var (nameAt i) ∧
    ∀ vs : List Value, before.length ≤ vs.length → (boundValues before vs).get? x = vs[i]?

variable {table : NameMap Term} {before rest : List (Option Refinement)}

theorem lists_nil : Lists [] [] := by
  refine ⟨fun x => ⟨fun h => (by cases h), ?_⟩, fun x t h => (by cases h)⟩
  rintro ⟨r, hr, -⟩
  cases hr

theorem Lists.skip (h : Lists table before) : Lists table (before ++ [none]) := by
  refine ⟨fun x => (h.bound x).trans (by simp), fun x t hx => ?_⟩
  obtain ⟨i, hi, rfl, hvalue⟩ := h.found x t hx
  rw [List.length_append, List.length_singleton]
  refine ⟨i, by omega, rfl, fun vs hvs => ?_⟩
  have hnone : boundValues [none] (vs.drop before.length) = [] := by
    cases vs.drop before.length <;> rfl
  rw [boundValues_append, hnone, List.append_nil, hvalue vs (by omega)]

theorem Lists.insert (h : Lists table before) (r : Refinement) :
    Lists (table.insert r.name (.var (nameAt before.length))) (before ++ [some r]) := by
  have get?_bound (x : String) (vs : List Value) (hvs : before.length + 1 ≤ vs.length) :
      (boundValues (before ++ [some r]) vs).get? x =
        if x = r.name then vs[before.length]? else (boundValues before vs).get? x := by
    obtain ⟨v, hv⟩ : ∃ v, vs[before.length]? = some v := ⟨_, List.getElem?_eq_getElem (by omega)⟩
    have hlast : boundValues [some r] (vs.drop before.length) = [(r.name, v)] := by
      obtain ⟨_, hdrop⟩ : ∃ tail, vs.drop before.length = v :: tail := by
        rw [List.getElem?_eq_some_iff] at hv
        exact ⟨_, hv.2 ▸ List.drop_eq_getElem_cons hv.1⟩
      rw [hdrop]
      rfl
    rw [boundValues_append, hlast, Env.get?_append, Env.get?_cons, hv]
    by_cases hx : x = r.name
    · simp [hx, Env.get?]
    · simp [hx, Ne.symm hx, Env.get?]
  refine ⟨fun x => ?_, fun x t hx => ?_⟩
  · have := h.bound x
    rw [NameMap.contains] at this
    rw [NameMap.contains, NameMap.get?_insert]
    by_cases hx : x = r.name
    · simp [hx]
    · simp [hx, Ne.symm hx, this]
  · rw [List.length_append, List.length_singleton]
    rw [NameMap.get?_insert] at hx
    split at hx
    next hname =>
      cases hx
      exact ⟨before.length, by omega, rfl, fun vs hvs => (get?_bound x vs hvs).trans (if_pos hname)⟩
    next hname =>
      obtain ⟨i, hi, rfl, hvalue⟩ := h.found x t hx
      refine ⟨i, by omega, rfl, fun vs hvs => ?_⟩
      rw [get?_bound x vs hvs, if_neg hname, hvalue vs (by omega)]

/-! ### One predicate -/

/-- A predicate is rewritten unless it mentions a name of positional spelling that the table does not have. -/
theorem resolve_cases (table : NameMap Term) (p : Term) :
    (∃ x ∈ p.freeVars, isName x = true ∧ table.contains x = false ∧
      resolve table p = .error (.ofCause (.nameCollision x))) ∨
    (∀ x ∈ p.freeVars, isName x = true → table.contains x = true) ∧ resolve table p = .ok (p.subst table.get?) := by
  unfold resolve
  split
  next x hfind =>
    have hx := List.find?_some hfind
    rw [Bool.and_eq_true, Bool.not_eq_true'] at hx
    exact .inl ⟨x, List.mem_of_find?_eq_some hfind, hx.2, hx.1, rfl⟩
  next hfind =>
    refine .inr ⟨fun x hx hname => ?_, rfl⟩
    simpa [hname] using List.find?_eq_none.1 hfind x hx

/-- A rewritten predicate evaluates on values by position as it did on values by name. -/
theorem Lists.eval_subst (h : Lists table before) {p : Term}
    (hp : ∀ x ∈ p.freeVars, isName x = true → table.contains x = true) (w : Width) (env : Env) {vs : List Value}
    (hvs : before.length ≤ vs.length) :
    (p.subst table.get?).eval w (env ++ positionalValues 0 vs) =
      (p.eval w (env ++ boundValues before vs)).mapError (·.subst table.get?) := by
  refine Term.eval_subst fun x hx => ?_
  have get?_positional (y : String) : (env ++ positionalValues 0 vs).get? y = (slot? 0 vs y).or (env.get? y) := by
    rw [Env.get?_append, get?_positionalValues]
  cases ht : table.get? x with
  | none =>
    have hfree : table.contains x = false := by rw [NameMap.contains, ht]; rfl
    have hname : isName x = false := by
      rw [← Bool.not_eq_true]
      intro hname
      rw [hp x hx hname] at hfree
      cases hfree
    have hunbound : (boundValues before vs).get? x = none := by
      rw [Option.eq_none_iff_forall_ne_some]
      intro v hv
      rw [(h.bound x).2 (exists_of_get?_boundValues hv)] at hfree
      cases hfree
    rw [Option.getD_none, Term.eval, Term.eval, get?_positional, Env.get?_append, slot?_of_not_isName hname,
      hunbound]
  | some t =>
    obtain ⟨i, hi, rfl, hvalue⟩ := h.found x t ht
    have hslot := slot?_nameAt 0 vs i
    rw [Nat.zero_add] at hslot
    rw [Option.getD_some, Term.eval, Term.eval, get?_positional, Env.get?_append, hslot, hvalue vs hvs,
      List.getElem?_eq_getElem (Nat.lt_of_lt_of_le hi hvs)]
    rfl

/-! ### All arguments -/

/-- An argument at a position is kept: absent, or with a positional name and a predicate that is rewritten by the
table of the arguments up to there. -/
def Kept (args : List (Option Refinement)) (i : Nat) : Option Refinement → Option Refinement → Prop
  | none, kept => kept = none
  | some r, kept => ∃ table, Lists table (args.take (i + 1)) ∧
    (∀ x ∈ r.predicate.freeVars, isName x = true → table.contains x = true) ∧
    kept = some ⟨nameAt i, r.predicate.subst table.get?⟩

/-- From some position on, all arguments are kept. -/
def KeptFrom (before rest out : List (Option Refinement)) : Prop :=
  ∀ k arg, rest[k]? = some arg → ∃ kept, out[k]? = some kept ∧ Kept (before ++ rest) (before.length + k) arg kept

theorem KeptFrom.cons {arg kept : Option Refinement} {out : List (Option Refinement)}
    (h : KeptFrom (before ++ [arg]) rest out) (hkept : Kept (before ++ arg :: rest) before.length arg kept) :
    KeptFrom before (arg :: rest) (kept :: out) := by
  intro k arg' hk
  cases k with
  | zero =>
    cases hk
    exact ⟨kept, rfl, hkept⟩
  | succ k =>
    obtain ⟨kept', hout, hkept'⟩ := h k arg' hk
    rw [List.append_assoc, List.length_append, List.length_singleton, Nat.add_assoc, Nat.add_comm 1] at hkept'
    exact ⟨kept', hout, hkept'⟩

/-- The arguments from some position on collide, or all of them are kept. -/
theorem argumentsFrom_cases (h : Lists table before) (rest : List (Option Refinement)) :
    (∃ x, argumentsFrom before.length table rest = .error (.ofCause (.nameCollision x)) ∧
      Collides (before ++ rest) x) ∨
    ∃ out, argumentsFrom before.length table rest = .ok out ∧ out.length = rest.length ∧
      KeptFrom before rest out := by
  induction rest generalizing table before with
  | nil => exact .inr ⟨[], rfl, rfl, fun k arg hk => (by cases hk)⟩
  | cons arg rest ih =>
    -- the arguments so far grow by this one
    have hlength : (before ++ [arg]).length = before.length + 1 := by simp
    have hall : before ++ [arg] ++ rest = before ++ arg :: rest := by simp
    have htake : (before ++ arg :: rest).take (before.length + 1) = before ++ [arg] := by
      rw [← hall, ← hlength, List.take_left']
      rfl
    cases arg with
    | none =>
      have ih := ih h.skip
      rw [hlength, hall] at ih
      rw [argumentsFrom]
      rcases ih with ⟨x, herror, hx⟩ | ⟨out, hok, hlen, hout⟩
      · exact .inl ⟨x, by rw [herror]; rfl, hx⟩
      · exact .inr ⟨none :: out, by rw [hok]; rfl, congrArg (· + 1) hlen, hout.cons rfl⟩
    | some r =>
      have hinsert := h.insert r
      have ih := ih hinsert
      rw [hlength, hall] at ih
      rw [argumentsFrom]
      rcases resolve_cases (table.insert r.name (.var (nameAt before.length))) r.predicate with
        ⟨x, hx, hname, hfree, hp⟩ | ⟨hnames, hp⟩
      · refine .inl ⟨x, by rw [hp]; rfl, before.length, r, by simp, hx, hname, fun r' hr' hr'x => ?_⟩
        rw [htake] at hr'
        rw [(hinsert.bound x).2 ⟨r', hr', hr'x⟩] at hfree
        cases hfree
      · rcases ih with ⟨x, herror, hx⟩ | ⟨out, hok, hlen, hout⟩
        · exact .inl ⟨x, by simp only [hp, herror, bind, Except.bind], hx⟩
        · exact .inr ⟨_ :: out, by simp only [hp, hok, bind, Except.bind]; rfl, congrArg (· + 1) hlen,
            hout.cons ⟨_, htake ▸ hinsert, hnames, rfl⟩⟩

/-- Arguments that are all kept do not collide. -/
theorem KeptFrom.not_collides {args out : List (Option Refinement)} (h : KeptFrom [] args out) (x : String) :
    ¬ Collides args x := by
  rintro ⟨i, r, hr, hx, hname, hfree⟩
  obtain ⟨_, -, table, hlists, hnames, -⟩ := h i _ hr
  rw [List.length_nil, Nat.zero_add] at hlists
  obtain ⟨r', hr', hr'x⟩ := (hlists.bound x).1 (hnames x hx hname)
  exact hfree r' hr' hr'x

/-- Arguments get positional names unless a predicate mentions a name of that spelling which nothing up to there
binds, and every failure names such a one. Otherwise absent arguments stay absent, and each predicate is rewritten
so that it evaluates on values by position as it did on values by name. -/
theorem arguments_collide_or_mean (args : List (Option Refinement)) :
    ((∃ fault, arguments args = .error fault) ↔ ∃ x, Collides args x) ∧
    (∀ fault, arguments args = .error fault → ∃ x, fault = .ofCause (.nameCollision x) ∧ Collides args x) ∧
    ∀ out : List (Option Refinement), arguments args = .ok out → out.length = args.length ∧
      (∀ i : Nat, args[i]? = some none → out[i]? = some none) ∧
      ∀ (i : Nat) (r : Refinement), args[i]? = some (some r) →
        ∃ σ, out[i]? = some (some ⟨nameAt i, r.predicate.subst σ⟩) ∧
          ∀ w env (vs : List Value), vs.length = args.length →
          (r.predicate.subst σ).eval w (env ++ positionalValues 0 vs) =
            (r.predicate.eval w (env ++ boundValues (args.take (i + 1)) vs)).mapError (·.subst σ) := by
  rcases argumentsFrom_cases lists_nil args with ⟨x, herror, hx⟩ | ⟨out, hok, hlen, hout⟩
  · have herror : arguments args = .error _ := herror
    refine ⟨iff_of_true ⟨_, herror⟩ ⟨x, hx⟩, fun fault h => ⟨x, ?_, hx⟩, fun out h => ?_⟩
    · exact Except.error.inj (h.symm.trans herror)
    · rw [herror] at h
      cases h
  · have hok : arguments args = .ok out := hok
    refine ⟨iff_of_false ?_ fun ⟨x, hx⟩ => hout.not_collides x hx, fun fault h => ?_, fun out' h => ?_⟩
    · rintro ⟨fault, h⟩
      rw [hok] at h
      cases h
    · rw [hok] at h
      cases h
    · obtain rfl := Except.ok.inj (hok.symm.trans h)
      refine ⟨hlen, fun i hi => ?_, fun i r hi => ?_⟩
      · obtain ⟨_, hkept, rfl⟩ := hout i _ hi
        exact hkept
      · obtain ⟨_, hkept, table, hlists, hnames, rfl⟩ := hout i _ hi
        rw [List.length_nil, Nat.zero_add] at hlists hkept
        rw [List.nil_append] at hlists
        refine ⟨table.get?, hkept, fun w env vs hvs => hlists.eval_subst hnames w env ?_⟩
        rw [List.length_take]
        omega

/-- Arguments with a gap, a name used again and the positional names of each other. -/
def swappedNames : List (Option Refinement) :=
  [some ⟨"$arg2", .binary .gt (.var "$arg2") (.int 0)⟩, none,
    some ⟨"$arg0", .binary .gt (.var "$arg0") (.binary .add (.var "$arg2") (.var "g"))⟩,
    some ⟨"$arg2", .binary .lt (.var "$arg2") (.var "$arg0")⟩]

theorem swappedNames_mean :
    arguments swappedNames = .ok
      [some ⟨"$arg0", .binary .gt (.var "$arg0") (.int 0)⟩, none,
        some ⟨"$arg2", .binary .gt (.var "$arg2") (.binary .add (.var "$arg0") (.var "g"))⟩,
        some ⟨"$arg3", .binary .lt (.var "$arg3") (.var "$arg2")⟩] ∧
      (∀ x, ¬ Collides swappedNames x) ∧
      ∃ σ, (Term.binary .gt (.var "$arg0") (.binary .add (.var "$arg2") (.var "g"))).subst σ =
          .binary .gt (.var "$arg2") (.binary .add (.var "$arg0") (.var "g")) ∧
        ∀ w a b c d e, (Term.binary .gt (.var "$arg2") (.binary .add (.var "$arg0") (.var "g"))).eval w
            ([("g", e)] ++ positionalValues 0 [a, b, c, d]) =
          ((Term.binary .gt (.var "$arg0") (.binary .add (.var "$arg2") (.var "g"))).eval w
            [("g", e), ("$arg2", a), ("$arg0", c)]).mapError (·.subst σ) := by
  have hok : arguments swappedNames = .ok
      [some ⟨"$arg0", .binary .gt (.var "$arg0") (.int 0)⟩, none,
        some ⟨"$arg2", .binary .gt (.var "$arg2") (.binary .add (.var "$arg0") (.var "g"))⟩,
        some ⟨"$arg3", .binary .lt (.var "$arg3") (.var "$arg2")⟩] := by
    cbv
  obtain ⟨hiff, -, hmean⟩ := arguments_collide_or_mean swappedNames
  refine ⟨hok, fun x hx => ?_, ?_⟩
  · obtain ⟨fault, herror⟩ := hiff.2 ⟨x, hx⟩
    rw [hok] at herror
    cases herror
  · obtain ⟨-, -, hpresent⟩ := hmean _ hok
    obtain ⟨σ, hσ, heval⟩ := hpresent 2 _ rfl
    have hσ : (Term.binary .gt (.var "$arg0") (.binary .add (.var "$arg2") (.var "g"))).subst σ = _ :=
      congrArg Refinement.predicate (Option.some.inj (Option.some.inj hσ)).symm
    dsimp only at hσ
    refine ⟨σ, hσ, fun w a b c d e => ?_⟩
    rw [← hσ]
    exact heval w [("g", e)] [a, b, c, d] rfl

end Canonical

end LayerCheck
