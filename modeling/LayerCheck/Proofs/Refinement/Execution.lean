import Mathlib
import LayerCheck.Program.Basic
import LayerCheck.Proofs.Refinement.Positional

/-! Runs of straight-line code. Expressions are evaluated strictly, over unbounded integers. The body of a
function is not looked at: a call returns the next of some given values, provided that it belongs to the
result type of the function for the arguments at hand. A run ends where a call does not return or an
operation has no result; whatever happened up to there counts. -/
namespace LayerCheck

/-- What happens in a run that a refined type speaks about. -/
inductive Event where
  /-- The next argument of a call has a value, after the earlier ones. -/
  | passed (store : Valuation) (callee : String) (earlier : List Value) (value : Value)
  | stored (name : String) (value : Value)

/-- How far a part of a run gets: what happens in it and, unless the run ends there, its result with the
values that are left for later calls. -/
structure Progress (α : Type) where
  events : List Event
  outcome : Option (α × List Value)

namespace Progress

variable {α β : Type}

def ofOption (a : Option α) (left : List Value) : Progress α := ⟨[], a.map (·, left)⟩

def done (a : α) (left : List Value) : Progress α := ofOption (some a) left

def andThen (p : Progress α) (next : α → List Value → Progress β) : Progress β :=
  match p.outcome with
  | none => ⟨p.events, none⟩
  | some (a, left) => ⟨p.events ++ (next a left).events, (next a left).outcome⟩

def after (e : Event) (p : Progress α) : Progress α := ⟨e :: p.events, p.outcome⟩

/-- Everything that happens is safe, and a result has some property. -/
structure Ensures (p : Progress α) (Safe : Event → Prop) (Q : α → Prop) : Prop where
  events : ∀ e ∈ p.events, Safe e
  result : ∀ a left, p.outcome = some (a, left) → Q a

variable {Safe : Event → Prop} {Q : α → Prop} {R : β → Prop}

theorem ensures_ofOption {a : Option α} {left : List Value} (h : ∀ b, a = some b → Q b) :
    (ofOption a left).Ensures Safe Q := by
  refine ⟨fun e he => (by cases he), fun b left' hb => ?_⟩
  obtain ⟨c, hc, hbc⟩ := Option.map_eq_some_iff.1 hb
  cases hbc
  exact h b hc

theorem ensures_done {a : α} {left : List Value} (h : Q a) : (done a left).Ensures Safe Q :=
  ensures_ofOption fun b hb => (by cases hb; exact h)

theorem Ensures.andThen {p : Progress α} {next : α → List Value → Progress β} (hp : p.Ensures Safe Q)
    (hnext : ∀ a left, Q a → (next a left).Ensures Safe R) : (p.andThen next).Ensures Safe R := by
  unfold Progress.andThen
  cases h : p.outcome with
  | none => exact ⟨hp.events, fun b left hb => (by cases hb)⟩
  | some r =>
    obtain ⟨a, left⟩ := r
    have hn := hnext a left (hp.result a left h)
    exact ⟨fun e he => (List.mem_append.1 he).elim (hp.events e) (hn.events e), hn.result⟩

theorem Ensures.imp {p : Progress α} {Q' : α → Prop} (hp : p.Ensures Safe Q) (h : ∀ a, Q a → Q' a) :
    p.Ensures Safe Q' :=
  ⟨hp.events, fun a left ha => h a (hp.result a left ha)⟩

theorem Ensures.after {p : Progress α} {e : Event} (he : Safe e) (hp : p.Ensures Safe Q) :
    (p.after e).Ensures Safe Q :=
  ⟨fun e' he' => (List.mem_cons.1 he').elim (fun h => h ▸ he) (hp.events e'), hp.result⟩

end Progress

/-! ### Expressions and statements -/

/-- The result of a call is the next value, if it belongs to the result type. -/
def Signature.returned (s : Signature) (store : Valuation) (args : List Value) : List Value → Progress Value
  | v :: left => .ofOption (if s.ret.Admits (store.withArgs args) v then some v else none) left
  | [] => .ofOption none []

mutual

def Expr.run (functions : NameMap Signature) (store : Valuation) : Expr → List Value → Progress Value
  | .num _ n, left => .done (.int n) left
  | .bool _ b, left => .done (.bool b) left
  | .ident _ x, left => .ofOption (store x) left
  | .call _ callee args, left =>
    (Expr.runArgs functions store callee [] args left).andThen fun vs left =>
      match functions.get? callee with
      | some s => s.returned store vs left
      | none => .ofOption none left
  | .binary _ op l r, left =>
    (Expr.run functions store l left).andThen fun a left =>
      (Expr.run functions store r left).andThen fun b left => .ofOption (a.binary? op b) left
  | .unary _ op e, left =>
    (Expr.run functions store e left).andThen fun a left => .ofOption (a.unary? op) left
  | .malformed _ _, left => .ofOption none left

/-- Evaluates the arguments of a call after some earlier ones. -/
def Expr.runArgs (functions : NameMap Signature) (store : Valuation) (callee : String) (earlier : List Value) :
    List Expr → List Value → Progress (List Value)
  | [], left => .done earlier left
  | e :: es, left =>
    (Expr.run functions store e left).andThen fun v left =>
      (Expr.runArgs functions store callee (earlier ++ [v]) es left).after (.passed store callee earlier v)

end

namespace Stmt

/-- Statements of straight-line code. -/
def isStraight : Stmt → Bool
  | declare _ | funDef .. | assign .. | expr .. => true
  | _ => false

def run (functions : NameMap Signature) (store : Valuation) (left : List Value) : Stmt → Progress Valuation
  | declare _ | funDef .. => .done store left
  | assign _ x e =>
    (e.run functions store left).andThen fun v left => (Progress.done (store.set x v) left).after (.stored x v)
  | expr _ e => (e.run functions store left).andThen fun _ left => .done store left
  | _ => .ofOption none left

def runAll (functions : NameMap Signature) (store : Valuation) (left : List Value) :
    List Stmt → Progress Valuation
  | [] => .done store left
  | s :: ss => (s.run functions store left).andThen fun store left => runAll functions store left ss

end Stmt

/-- A value that is passed belongs to the type of its parameter, given the earlier arguments, and one that is
stored in a declared variable to the type of that variable. -/
def Event.Safe (declared : NameMap RefinedType) (functions : NameMap Signature) : Event → Prop
  | passed store callee earlier v => ∃ s ty, functions.get? callee = some s ∧
      s.args[earlier.length]? = some ty ∧ ty.Admits (store.withArgs earlier) v
  | stored x v => ∀ ty, declared.get? x = some ty → ty.Admits (fun _ => none) v

end LayerCheck
