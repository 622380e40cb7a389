import Mathlib
import LayerCheck.Proofs.Refinement.Positional

/-! What positional names do to the meaning of a result type. The author's predicate reads the value of an
argument by the name that its type binds, and of two arguments of one name the last; the predicate that is kept
reads it by position. The two agree on all values, unless the bound name of the result is itself spelled like
the position of an argument that the predicate mentions. -/
namespace LayerCheck

/-- What evaluation gives for the predicate of a type, where its bound name has a given value. -/
def RefinedType.test (ty : RefinedType) (w : Width) (env : Env) (v : Value) : Except EvalError Value :=
  match ty.refinement with
  | some r => r.predicate.eval w (env ++ [(r.name, v)])
  | none => .ok (.bool true)

/-- The values of arguments by the names that they bind. -/
def Canonical.boundValues : List (Option Refinement) → List Value → Env
  | some r :: args, v :: vs => (r.name, v) :: boundValues args vs
  | none :: args, _ :: vs => boundValues args vs
  | _, _ => []

namespace Signature

/-- The values of arguments by the names that their types bind. -/
def namedValues (args : List RefinedType) (vs : List Value) : Env := Canonical.boundValues (args.map (·.refinement)) vs

/-- The values of arguments by their positions. -/
def positionalValues (position : Nat) : List Value → Env
  | [] => []
  | v :: vs => (Canonical.nameAt position, v) :: positionalValues (position + 1) vs

/-- The position of the last argument to bind a name. -/
def binder? (position : Nat) : List RefinedType → String → Option Nat
  | [], _ => none
  | arg :: args, x =>
    (binder? (position + 1) args x).or (if arg.refinement.map (·.name) = some x then some position else none)

/-- The bound name of the result is spelled like the position of an argument that its predicate mentions. -/
def Captures (s : Signature) : Prop :=
  ∃ r x i, s.ret.refinement = some r ∧ x ∈ r.predicate.freeVars ∧ x ≠ r.name ∧ binder? 0 s.args x = some i ∧
    r.name = Canonical.nameAt i

end Signature

namespace Canonical

open Signature

theorem isName_nameAt (i : Nat) : isName (nameAt i) = true := by
  rw [isName, toList_nameAt]
  simp only [isDigits, Bool.and_eq_true, Bool.not_eq_true', List.isEmpty_eq_false_iff, List.all_eq_true]
  exact ⟨Nat.toDigits_ne_nil, fun c hc => Nat.isDigit_of_mem_toDigits (by decide) (by decide) hc⟩

theorem get?_tableFrom (position : Nat) (table : NameMap Term) (args : List RefinedType) (x : String) :
    (tableFrom position table args).get? x =
      ((binder? position args x).map fun i => .var (nameAt i)).or (table.get? x) := by
  induction args generalizing position table with
  | nil => rfl
  | cons arg args ih =>
    rw [tableFrom, binder?]
    cases arg.refinement with
    | none =>
      dsimp only
      rw [ih]
      cases binder? (position + 1) args x <;> rfl
    | some r =>
      dsimp only
      rw [ih, NameMap.get?_insert]
      cases binder? (position + 1) args x with
      | some i => rfl
      | none =>
        by_cases h : x = r.name
        · simp [h]
        · simp [h, Ne.symm h]

theorem binder?_eq_some {position : Nat} {args : List RefinedType} {x : String} {i : Nat}
    (h : binder? position args x = some i) : ∃ k < args.length, i = position + k := by
  induction args generalizing position with
  | nil => cases h
  | cons arg args ih =>
    rw [binder?, Option.or_eq_some_iff] at h
    rcases h with h | ⟨-, h⟩
    · obtain ⟨k, hk, rfl⟩ := ih h
      exact ⟨k + 1, Nat.succ_lt_succ hk, by omega⟩
    · split at h
      · exact ⟨0, Nat.succ_pos _, (Option.some.inj h).symm⟩
      · cases h

/-- An argument's name has the value at the position of the last argument to bind it. -/
theorem get?_namedValues (position : Nat) (args : List RefinedType) (vs : List Value) (x : String)
    (hlen : vs.length = args.length) :
    (namedValues args vs).get? x = (binder? position args x).bind fun i => slot? position vs (nameAt i) := by
  induction args generalizing position vs with
  | nil => rfl
  | cons arg args ih =>
    obtain _ | ⟨v, vs⟩ := vs
    · cases hlen
    have ih := ih (position + 1) vs (Nat.succ.inj hlen)
    have hrest : (namedValues (arg :: args) (v :: vs)).get? x = ((namedValues args vs).get? x).or
        (if arg.refinement.map (·.name) = some x then some v else none) := by
      rw [namedValues, List.map_cons]
      cases arg.refinement with
      | none => simp [boundValues, namedValues]
      | some r => simp [boundValues, namedValues, Env.get?_cons]
    rw [hrest, ih, binder?]
    cases hb : binder? (position + 1) args x with
    | none =>
      split
      · simp [slot?]
      · rfl
    | some i =>
      obtain ⟨k, hk, rfl⟩ := binder?_eq_some hb
      have hne : nameAt (position + 1 + k) ≠ nameAt position := by
        intro h
        have := nameAt_injective h
        omega
      simp [slot?, hne, slot?_nameAt, List.getElem?_eq_getElem (Nat.succ.inj hlen ▸ hk)]

theorem get?_positionalValues (position : Nat) (vs : List Value) (x : String) :
    (positionalValues position vs).get? x = slot? position vs x := by
  induction vs generalizing position with
  | nil => rfl
  | cons v vs ih =>
    rw [positionalValues, Env.get?_cons, ih, slot?]
    by_cases h : x = nameAt position
    · have hslot : slot? (position + 1) vs x = none := by
        rw [Option.eq_none_iff_forall_ne_some]
        intro v hv
        obtain ⟨i, -, hi⟩ := slot?_eq_some hv
        have := nameAt_injective (h.symm.trans hi)
        omega
      rw [if_pos h.symm, if_pos h, hslot, Option.none_or]
    · rw [if_neg (Ne.symm h), if_neg h, Option.or_none]

theorem slot?_of_not_isName {as : List Value} {x : String} (h : isName x = false) : slot? 0 as x = none := by
  rw [Option.eq_none_iff_forall_ne_some]
  intro a ha
  obtain ⟨i, -, rfl⟩ := slot?_eq_some ha
  rw [isName_nameAt] at h
  cases h

theorem isName_of_resolve {table : NameMap Term} {p q : Term} (h : resolve table p = .ok q) {x : String}
    (hx : x ∈ p.freeVars) (hnone : table.get? x = none) : isName x = false := by
  unfold resolve at h
  split at h
  next => cases h
  next hfind =>
    have := List.find?_eq_none.1 hfind x hx
    simpa [NameMap.contains, hnone] using this

/-- The kept predicate of the result reads a variable as the author's predicate does. -/
theorem get?_reading {s : Signature} {r : Refinement} (hr : s.ret.refinement = some r) (hfree : ¬ s.Captures)
    {p : Term} (hp : resolve ((tableFrom 0 [] s.args).erase r.name) r.predicate = .ok p) {vs : List Value}
    (hlen : vs.length = s.arity) (w : Width) (env : Env) (v : Value) {x : String} (hx : x ∈ r.predicate.freeVars) :
    (((((tableFrom 0 [] s.args).erase r.name).get? x).getD (.var x)).eval w
      (env ++ positionalValues 0 vs ++ [(r.name, v)])).toOption =
      (env ++ namedValues s.args vs ++ [(r.name, v)]).get? x := by
  have read_var (y : String) : ((Term.var y).eval w (env ++ positionalValues 0 vs ++ [(r.name, v)])).toOption =
      if r.name = y then some v else (slot? 0 vs y).or (env.get? y) := by
    rw [Term.toOption_eval_var, Env.get?_append, Env.get?_append, get?_positionalValues, Env.get?_cons]
    split <;> rfl
  have named : (env ++ namedValues s.args vs ++ [(r.name, v)]).get? x = if r.name = x then some v else
      ((binder? 0 s.args x).bind fun i => slot? 0 vs (nameAt i)).or (env.get? x) := by
    rw [Env.get?_append, Env.get?_append, get?_namedValues 0 _ _ _ hlen, Env.get?_cons]
    split <;> rfl
  rw [named, NameMap.get?_erase, get?_tableFrom]
  by_cases hne : x = r.name
  · rw [if_pos hne, Option.getD_none, read_var, if_pos hne.symm, if_pos hne.symm]
  rw [if_neg hne, if_neg (Ne.symm hne)]
  cases hb : binder? 0 s.args x with
  | none =>
    have hname : isName x = false := by
      refine isName_of_resolve hp hx ?_
      rw [NameMap.get?_erase, if_neg hne, get?_tableFrom, hb]
      rfl
    exact (read_var x).trans (by rw [if_neg (Ne.symm hne), slot?_of_not_isName hname]; rfl)
  | some i =>
    obtain ⟨k, hk, rfl⟩ := binder?_eq_some hb
    have hfresh : r.name ≠ nameAt (0 + k) := fun h => hfree ⟨r, x, _, hr, hx, hne, hb, h⟩
    have hk : k < vs.length := hlen ▸ hk
    have hvalue : slot? 0 vs (nameAt (0 + k)) = some vs[k] := by
      rw [slot?_nameAt, List.getElem?_eq_getElem]
    exact (read_var _).trans (by rw [if_neg hfresh, Option.bind_some, hvalue]; rfl)

/-- Giving arguments positional names keeps what the result type says of a value, whatever the values of
arguments and other variables. -/
theorem toOption_test_ret {function : String} {s s' : Signature} (h : signature function s = .ok s')
    (hfree : ¬ s.Captures) {vs : List Value} (hlen : vs.length = s.arity) (w : Width) (env : Env) (v : Value) :
    (s'.ret.test w (env ++ positionalValues 0 vs) v).toOption =
      (s.ret.test w (env ++ namedValues s.args vs) v).toOption := by
  obtain ⟨_, -, h⟩ := bind_eq_ok.1 h
  obtain ⟨_, -, h⟩ := bind_eq_ok.1 h
  obtain ⟨ret, hret, h⟩ := bind_eq_ok.1 h
  cases h
  cases hr : s.ret.refinement with
  | none =>
    rw [result, hr] at hret
    cases hret
    rw [RefinedType.test, hr, RefinedType.test, hr]
  | some r =>
    rw [result, hr] at hret
    obtain ⟨p, hp, hret⟩ := bind_eq_ok.1 hret
    cases hret
    rw [RefinedType.test, RefinedType.test, hr]
    dsimp only
    rw [resolve_eq_ok hp]
    exact Term.toOption_eval_subst fun x hx => get?_reading hr hfree hp hlen w env v hx

/-- A second argument that takes the name of the first one's position, and a result that takes the name of the
first argument. -/
def borrowedNames : Signature :=
  ⟨[.refined .int "x" (.binary .gt (.var "x") (.int 0)),
    .refined .int "$arg0" (.binary .gt (.var "$arg0") (.var "x"))],
    .refined .int "x" (.binary .ge (.var "x") (.binary .add (.var "$arg0") (.var "g")))⟩

theorem borrowedNames_test_ret :
    signature "f" borrowedNames = .ok
      ⟨[.refined .int "$arg0" (.binary .gt (.var "$arg0") (.int 0)),
        .refined .int "$arg1" (.binary .gt (.var "$arg1") (.var "$arg0"))],
        .refined .int "x" (.binary .ge (.var "x") (.binary .add (.var "$arg1") (.var "g")))⟩ ∧
      ∀ (w : Width) (a b c d : Int),
        ((RefinedType.refined .int "x" (.binary .ge (.var "x") (.binary .add (.var "$arg1") (.var "g")))).test w
          ([("g", .int c)] ++ positionalValues 0 [.int a, .int b]) (.int d)).toOption =
        (borrowedNames.ret.test w ([("g", .int c)] ++ namedValues borrowedNames.args [.int a, .int b])
          (.int d)).toOption := by
  have hsignature : signature "f" borrowedNames = .ok
      ⟨[.refined .int "$arg0" (.binary .gt (.var "$arg0") (.int 0)),
        .refined .int "$arg1" (.binary .gt (.var "$arg1") (.var "$arg0"))],
        .refined .int "x" (.binary .ge (.var "x") (.binary .add (.var "$arg1") (.var "g")))⟩ := by
    cbv
  have hfree : ¬ borrowedNames.Captures := by
    rintro ⟨r, _, i, hr, -, -, -, hi⟩
    cases hr
    exact not_plain_nameAt i (hi ▸ by decide)
  exact ⟨hsignature, fun w a b c d => toOption_test_ret hsignature hfree rfl w [("g", .int c)] (.int d)⟩

/-- A result that binds the name of the first argument's position, where its predicate mentions that argument. -/
def capturedArgument : Signature :=
  ⟨[.refined .int "x" (.binary .gt (.var "x") (.int 0))],
    .refined .int "$arg0" (.binary .gt (.var "x") (.int 5))⟩

/-- Once its argument has a positional name, the result says of itself what it said of the argument. -/
theorem capturedArgument_test_ret : capturedArgument.Captures ∧ ∃ s',
    signature "f" capturedArgument = .ok s' ∧
      s'.ret.test .unbounded (positionalValues 0 [.int 1]) (.int 9) = .ok (.bool true) ∧
      capturedArgument.ret.test .unbounded (namedValues capturedArgument.args [.int 1]) (.int 9) =
        .ok (.bool false) := by
  refine ⟨⟨_, "x", 0, rfl, by decide, by decide, by decide, by decide⟩,
    ⟨[.refined .int "$arg0" (.binary .gt (.var "$arg0") (.int 0))],
      .refined .int "$arg0" (.binary .gt (.var "$arg0") (.int 5))⟩, ?_, ?_, ?_⟩
  · cbv
  · cbv
  · cbv

end Canonical

end LayerCheck
