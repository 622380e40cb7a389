import Mathlib
import LayerCheck.Proofs.Except
import LayerCheck.Term.Eval

/-! The value of a term as a function of the values of its variables. Where `eval` reports what went
wrong, the denotation only has no value, and so it commutes with substitution without conditions. Over
unbounded integers the two agree, and a value computed in words is also the unbounded one. -/
namespace LayerCheck

namespace Env

theorem get?_cons (p : String × Value) (env : Env) (x : String) :
    Env.get? (p :: env) x = (env.get? x).or (if p.1 = x then some p.2 else none) := by
  rw [Env.get?]
  cases env.get? x <;> rfl

theorem get?_append (env env' : Env) (x : String) : (env ++ env').get? x = (env'.get? x).or (env.get? x) := by
  induction env with
  | nil => exact (Option.or_none).symm
  | cons p env ih => rw [List.cons_append, get?_cons, ih, get?_cons, Option.or_assoc]

theorem get?_filter (env : Env) (p : String → Bool) (x : String) :
    get? (env.filter fun q => p q.1) x = if p x then env.get? x else none := by
  induction env with
  | nil => exact (ite_self none).symm
  | cons q env ih =>
    rw [List.filter_cons, get?_cons]
    by_cases hq : q.1 = x
    · subst hq
      by_cases hp : p q.1
      · rw [if_pos hp, get?_cons, ih, if_pos hp, if_pos hp]
      · rw [if_neg hp, ih, if_neg hp, if_neg hp]
    · have hrest : get? (if p q.1 then q :: env.filter fun q => p q.1 else env.filter fun q => p q.1) x =
          get? (env.filter fun q => p q.1) x := by
        split
        next => rw [get?_cons, if_neg hq, Option.or_none]
        next => rfl
      rw [hrest, ih, if_neg hq, Option.or_none]

end Env

/-- Values of the variables that have one. -/
abbrev Valuation := String → Option Value

namespace Value

def base : Value → BaseType
  | int _ => .int
  | bool _ => .bool

/-- The result of an operation on a value of the right type. -/
def unary? : UnaryOp → Value → Option Value
  | .not, bool b => some (bool !b)
  | .neg, int n => some (int (-n))
  | _, _ => none

/-- The result of an operation on two values of the right types. -/
def binary? : BinaryOp → Value → Value → Option Value
  | .add, int m, int n => some (int (m + n))
  | .sub, int m, int n => some (int (m - n))
  | .mul, int m, int n => some (int (m * n))
  | .lt, int m, int n => some (bool (m < n))
  | .le, int m, int n => some (bool (m ≤ n))
  | .gt, int m, int n => some (bool (n < m))
  | .ge, int m, int n => some (bool (n ≤ m))
  | .and, bool a, bool b => some (bool (a && b))
  | .or, bool a, bool b => some (bool (a || b))
  | .eq, a, b => (a.sameAs? b).map bool
  | .ne, a, b => (a.sameAs? b).map fun same => bool !same
  | _, _, _ => none

theorem sameAs?_eq_true {a b : Value} : a.sameAs? b = some true ↔ a = b := by
  cases a <;> cases b <;> simp [sameAs?]

end Value

/-- The result of `&&` or `||` when the left operand decides it. -/
def BinaryOp.shortcut? : BinaryOp → Value → Option Value
  | .and, .bool false => some (.bool false)
  | .or, .bool true => some (.bool true)
  | _, _ => none

namespace Term

def denote (ρ : Valuation) : Term → Option Value
  | var x => ρ x
  | int n => some (.int n)
  | bool b => some (.bool b)
  | unary op t => (t.denote ρ).bind (Value.unary? op)
  | binary op l r => (l.denote ρ).bind fun a => (op.shortcut? a).or ((r.denote ρ).bind (a.binary? op))

attribute [grind =] Value.unary? Value.binary? BinaryOp.shortcut? denote eval

/-- A predicate is true. -/
def Holds (ρ : Valuation) (t : Term) : Prop := t.denote ρ = some (.bool true)

theorem holds_true (ρ : Valuation) : (bool true).Holds ρ := rfl

theorem holds_and {ρ : Valuation} {l r : Term} : (binary .and l r).Holds ρ ↔ l.Holds ρ ∧ r.Holds ρ := by
  simp only [Holds, denote]
  rcases l.denote ρ with _ | _ | _ | _ <;> rcases r.denote ρ with _ | _ | _ | _ <;>
    simp [BinaryOp.shortcut?, Value.binary?]

theorem denote_and_false {ρ : Valuation} {l r : Term} : (binary .and l r).denote ρ = some (.bool false) ↔
    l.denote ρ = some (.bool false) ∨ l.Holds ρ ∧ r.denote ρ = some (.bool false) := by
  simp only [Holds, denote]
  rcases l.denote ρ with _ | _ | _ | _ <;> rcases r.denote ρ with _ | _ | _ | _ <;>
    simp [BinaryOp.shortcut?, Value.binary?]

theorem holds_or {ρ : Valuation} {l r : Term} : (binary .or l r).Holds ρ ↔
    l.Holds ρ ∨ l.denote ρ = some (.bool false) ∧ r.Holds ρ := by
  simp only [Holds, denote]
  rcases l.denote ρ with _ | _ | _ | _ <;> rcases r.denote ρ with _ | _ | _ | _ <;>
    simp [BinaryOp.shortcut?, Value.binary?]

theorem denote_or_false {ρ : Valuation} {l r : Term} : (binary .or l r).denote ρ = some (.bool false) ↔
    l.denote ρ = some (.bool false) ∧ r.denote ρ = some (.bool false) := by
  simp only [denote]
  rcases l.denote ρ with _ | _ | _ | _ <;> rcases r.denote ρ with _ | _ | _ | _ <;>
    simp [BinaryOp.shortcut?, Value.binary?]

theorem denote_not {ρ : Valuation} {t : Term} {b : Bool} :
    (unary .not t).denote ρ = some (.bool b) ↔ t.denote ρ = some (.bool !b) := by
  simp only [denote]
  rcases t.denote ρ with _ | _ | _ | _ <;> cases b <;> simp [Value.unary?]

theorem holds_equal {ρ : Valuation} {l r : Term} :
    (equal l r).Holds ρ ↔ ∃ v, l.denote ρ = some v ∧ r.denote ρ = some v := by
  simp only [Holds, equal, denote]
  rcases l.denote ρ with _ | a <;> rcases r.denote ρ with _ | b <;>
    simp [BinaryOp.shortcut?, Value.binary?, Value.sameAs?_eq_true]
  exact eq_comm

/-! ### Variables and substitution -/

theorem denote_congr {ρ ρ' : Valuation} {t : Term} (h : ∀ x ∈ t.freeVars, ρ x = ρ' x) :
    t.denote ρ = t.denote ρ' := by
  induction t with
  | var x => exact h x (by simp [freeVars])
  | int n => rfl
  | bool b => rfl
  | unary op t ih => simp only [denote, ih h]
  | binary op l r ihl ihr =>
    simp only [mem_freeVars_binary] at h
    simp only [denote, ihl fun x hx => h x (.inl hx), ihr fun x hx => h x (.inr hx)]

theorem eval_congr {w : Width} {env env' : Env} {t : Term} (h : ∀ x ∈ t.freeVars, env.get? x = env'.get? x) :
    t.eval w env = t.eval w env' := by
  induction t with
  | var x => rw [eval, eval, h x (List.mem_singleton_self x)]
  | int n => rfl
  | bool b => rfl
  | unary op t ih => cases op <;> simp only [eval, ih h]
  | binary op l r ihl ihr =>
    simp only [mem_freeVars_binary] at h
    have ihl := ihl fun x hx => h x (.inl hx)
    have ihr := ihr fun x hx => h x (.inr hx)
    cases op <;> simp only [eval, ihl, ihr]

/-- The valuation under which a term has the value that it has after a substitution. -/
def pulled (ρ : Valuation) (σ : String → Option Term) : Valuation := fun x => ((σ x).getD (var x)).denote ρ

theorem denote_subst (ρ : Valuation) (σ : String → Option Term) (t : Term) :
    (t.subst σ).denote ρ = t.denote (pulled ρ σ) := by
  induction t with
  | var x => rfl
  | int n => rfl
  | bool b => rfl
  | unary op t ih => simp only [subst, denote, ih]
  | binary op l r ihl ihr => simp only [subst, denote, ihl, ihr]

theorem pulled_single (ρ : Valuation) (x : String) (s : Term) (y : String) :
    pulled ρ (single x s) y = if y = x then s.denote ρ else ρ y := by
  by_cases h : y = x <;> simp [pulled, single, h, denote]

theorem denote_subst_single (ρ : Valuation) (x : String) (s t : Term) :
    (t.subst (single x s)).denote ρ = t.denote fun y => if y = x then s.denote ρ else ρ y := by
  rw [denote_subst]
  exact denote_congr fun y _ => pulled_single ρ x s y

theorem denote_rename (ρ : Valuation) (x y : String) (t : Term) :
    (t.rename x y).denote ρ = t.denote fun z => if z = x then ρ y else ρ z := by
  rw [rename, denote_subst_single]
  rfl

/-! ### Evaluation -/

/-- Over unbounded integers, evaluation gives the denotation or an error. -/
theorem toOption_eval (env : Env) (t : Term) : (t.eval .unbounded env).toOption = t.denote env.get? := by
  induction t with
  | var x => cases h : env.get? x <;> simp [eval, denote, h, Except.toOption]
  | int n => rfl
  | bool b => rfl
  | unary op t ih =>
    cases op <;> simp only [eval, toOption_bind, ih, denote] <;>
      rcases t.denote env.get? with _ | _ | _ <;> rfl
  | binary op l r ihl ihr =>
    cases op <;> simp only [eval, toOption_bind, apply_ite Except.toOption, ihl, ihr, denote] <;>
      rcases l.denote env.get? with _ | _ | _ | _ <;> rcases r.denote env.get? with _ | _ | _ | _ <;> rfl

theorem eval_eq_ok {env : Env} {t : Term} {v : Value} :
    t.eval .unbounded env = .ok v ↔ t.denote env.get? = some v := by
  rw [← toOption_eval]
  cases t.eval .unbounded env <;> simp [Except.toOption]

theorem eq_int_of_produced {w : Width} {t : Term} {n : Int} {v : Value} (h : produced w t n = .ok v) :
    v = .int n := by
  unfold produced at h
  split at h
  · exact (Except.ok.inj h).symm
  · cases h

/-- Whatever the width, a value that evaluation gives is the denotation. -/
theorem denote_of_eval {w : Width} {env : Env} {t : Term} {v : Value} (h : t.eval w env = .ok v) :
    t.denote env.get? = some v := by
  induction t generalizing v with
  | var x =>
    rw [eval] at h
    split at h
    next hx => rw [denote, hx, Except.ok.inj h]
    next => cases h
  | int n => rw [denote, ← Except.ok.inj h]
  | bool b => rw [denote, ← Except.ok.inj h]
  | unary op t ih =>
    rcases ht : t.eval w env with e | a
    · cases op <;> simp [eval, ht, bind, Except.bind] at h
    · rw [denote, ih ht, Option.bind_some]
      cases op <;> cases a <;> simp only [eval, ht] at h
      case neg.int => rw [eq_int_of_produced h]; rfl
      all_goals cases h <;> rfl
  | binary op l r ihl ihr =>
    rcases hl : l.eval w env with e | a
    · cases op <;> simp [eval, hl, bind, Except.bind] at h
    · rw [denote, ihl hl, Option.bind_some]
      rcases hr : r.eval w env with e | b
      · -- the left operand alone has decided
        cases op <;> rcases a with _ | _ | _ <;> simp only [eval, hl, hr] at h <;> cases h <;> rfl
      · rw [ihr hr, Option.bind_some]
        cases op <;> rcases a with _ | _ | _ <;> rcases b with _ | _ | _ <;> simp only [eval, hl, hr] at h
        case add.int.int | sub.int.int | mul.int.int => rw [eq_int_of_produced h]; rfl
        all_goals cases h <;> rfl

theorem denote_of_evalBool {w : Width} {env : Env} {t : Term} {b : Bool} (h : t.evalBool w env = .ok b) :
    t.denote env.get? = some (.bool b) := by
  rcases ht : t.eval w env with e | v
  · simp [evalBool, ht, bind, Except.bind] at h
  · rw [denote_of_eval ht]
    cases v <;> simp only [evalBool, ht] at h <;> cases h
    rfl

theorem toOption_eval_var (w : Width) (env : Env) (x : String) : ((var x).eval w env).toOption = env.get? x := by
  rw [eval]
  cases env.get? x <;> rfl

theorem toOption_produced (w : Width) (s t : Term) (n : Int) :
    (produced w s n).toOption = (produced w t n).toOption := by
  unfold produced
  split <;> rfl

theorem toOption_arith (w : Width) (s t : Term) (op : BinaryOp) (m n : Int) :
    (arith w s op m n).toOption = (arith w t op m n).toOption := by
  cases op <;> first | exact toOption_produced w s t _ | rfl

/-- Whatever the width, a term has after a substitution the value that it has where its variables have those of
the terms put in for them. -/
theorem toOption_eval_subst {w : Width} {env env' : Env} {σ : String → Option Term} {t : Term}
    (h : ∀ x ∈ t.freeVars, (((σ x).getD (var x)).eval w env).toOption = env'.get? x) :
    ((t.subst σ).eval w env).toOption = (t.eval w env').toOption := by
  induction t with
  | var x =>
    rw [subst, h x (List.mem_singleton_self x), toOption_eval_var]
  | int n => rfl
  | bool b => rfl
  | unary op t ih =>
    cases op <;> simp only [subst, eval, toOption_bind, ih h] <;>
      rcases (t.eval w env').toOption with _ | _ | _ <;> first | rfl | exact toOption_produced ..
  | binary op l r ihl ihr =>
    simp only [mem_freeVars_binary] at h
    have ihl := ihl fun x hx => h x (.inl hx)
    have ihr := ihr fun x hx => h x (.inr hx)
    cases op <;> simp only [subst, eval, toOption_bind, apply_ite Except.toOption, ihl, ihr] <;>
      rcases (l.eval w env').toOption with _ | _ | _ | _ <;>
      rcases (r.eval w env').toOption with _ | _ | _ | _ <;> first | rfl | exact toOption_arith ..

end Term

end LayerCheck
