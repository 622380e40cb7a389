import Mathlib
import LayerCheck.Proofs.Term.Denotation

/-! Base types of terms. A term that has a base type over some variables has a value of that type as soon
as the variables have values of theirs: nothing can go wrong but an overflow. -/
namespace LayerCheck

/-- Base types of the variables that have one. -/
abbrev Bases := String → Option BaseType

/-- Every variable with a base type has a value of that type. -/
def Valuation.Fits (ρ : Valuation) (Γ : Bases) : Prop := ∀ x b, Γ x = some b → ∃ v, ρ x = some v ∧ v.base = b

/-- A valuation with one value changed. -/
def Valuation.set (ρ : Valuation) (x : String) (v : Value) : Valuation :=
  fun y => if y = x then some v else ρ y

def Bases.set (Γ : Bases) (x : String) (b : BaseType) : Bases := fun y => if y = x then some b else Γ y

namespace Valuation

theorem set_self (ρ : Valuation) (x : String) (v : Value) : ρ.set x v x = some v := if_pos rfl

theorem set_of_ne (ρ : Valuation) {x y : String} (h : y ≠ x) (v : Value) : ρ.set x v y = ρ y := if_neg h

theorem Fits.set {ρ : Valuation} {Γ : Bases} (h : ρ.Fits Γ) {v : Value} {b : BaseType} (hv : v.base = b)
    (x : String) : (ρ.set x v).Fits (Γ.set x b) := by
  intro y c hy
  rw [Bases.set] at hy
  split at hy
  next hyx =>
    rw [hyx, set_self]
    exact ⟨v, rfl, hv.trans (Option.some.inj hy)⟩
  next hyx =>
    rw [set_of_ne ρ hyx]
    exact h y c hy

end Valuation

/-- The base type that an operator takes and gives. -/
def UnaryOp.base : UnaryOp → BaseType
  | .not => .bool
  | .neg => .int

/-- The base type of an operation on two operands of one base type. -/
def BinaryOp.resultOn? : BinaryOp → BaseType → Option BaseType
  | .add, .int | .sub, .int | .mul, .int => some .int
  | .lt, .int | .le, .int | .gt, .int | .ge, .int => some .bool
  | .and, .bool | .or, .bool => some .bool
  | .eq, _ | .ne, _ => some .bool
  | _, _ => none

namespace Value

theorem unary?_base {op : UnaryOp} {v : Value} (h : v.base = op.base) :
    ∃ w, v.unary? op = some w ∧ w.base = op.base := by
  cases op <;> cases v <;> simp [base, UnaryOp.base] at h <;> exact ⟨_, rfl, rfl⟩

theorem binary?_base {op : BinaryOp} {a b : BaseType} {u v : Value} (hop : op.resultOn? a = some b)
    (hu : u.base = a) (hv : v.base = a) :
    ∃ w, u.binary? op v = some w ∧ w.base = b := by
  subst hu
  cases op <;> cases u <;> cases v <;> simp [base] at hv <;> cases hop <;> exact ⟨_, rfl, rfl⟩

/-- A shortcut gives what the operation gives on any right operand of the right type. -/
theorem shortcut?_or_binary? {op : BinaryOp} {u v : Value} (h : u.base = v.base) :
    (op.shortcut? u).or (u.binary? op v) = u.binary? op v := by
  match u, v, h with
  | .int _, .int _, _ => cases op <;> rfl
  | .bool b, .bool _, _ => cases op <;> cases b <;> rfl

end Value

namespace Term

/-- Terms and their base types, over variables of given base types. -/
inductive HasBase (Γ : Bases) : Term → BaseType → Prop
  | var {x : String} {b : BaseType} : Γ x = some b → HasBase Γ (.var x) b
  | int (n : Int) : HasBase Γ (.int n) .int
  | bool (b : Bool) : HasBase Γ (.bool b) .bool
  | unary {op : UnaryOp} {t : Term} : HasBase Γ t op.base → HasBase Γ (.unary op t) op.base
  | binary {op : BinaryOp} {l r : Term} {a b : BaseType} : op.resultOn? a = some b → HasBase Γ l a →
      HasBase Γ r a → HasBase Γ (.binary op l r) b

/-- The base type of a term, if it has one. -/
def baseOf? (Γ : Bases) : Term → Option BaseType
  | var x => Γ x
  | int _ => some .int
  | bool _ => some .bool
  | unary op t => if t.baseOf? Γ = some op.base then some op.base else none
  | binary op l r => (l.baseOf? Γ).bind fun a => if r.baseOf? Γ = some a then op.resultOn? a else none

theorem hasBase_iff {Γ : Bases} {t : Term} {b : BaseType} : t.HasBase Γ b ↔ t.baseOf? Γ = some b := by
  constructor
  · intro h
    induction h with
    | var hx => exact hx
    | int n => rfl
    | bool b => rfl
    | unary _ ih => rw [baseOf?, ih, if_pos rfl]
    | binary hop _ _ ihl ihr => rw [baseOf?, ihl, Option.bind_some, ihr, if_pos rfl, hop]
  · intro h
    induction t generalizing b with
    | var x => exact .var h
    | int n =>
      cases h
      exact .int n
    | bool c =>
      cases h
      exact .bool c
    | unary op t ih =>
      rw [baseOf?] at h
      split at h
      next ht =>
        cases h
        exact .unary (ih ht)
      next => cases h
    | binary op l r ihl ihr =>
      obtain ⟨a, ha, h⟩ := Option.bind_eq_some_iff.1 h
      split at h
      next hr => exact .binary h (ihl ha) (ihr hr)
      next => cases h

instance (Γ : Bases) (t : Term) (b : BaseType) : Decidable (t.HasBase Γ b) :=
  decidable_of_iff _ hasBase_iff.symm

theorem denote_binary {ρ : Valuation} {op : BinaryOp} {l r : Term} {u v : Value} (hl : l.denote ρ = some u)
    (hr : r.denote ρ = some v) (h : u.base = v.base) : (binary op l r).denote ρ = u.binary? op v := by
  rw [denote, hl, hr]
  exact Value.shortcut?_or_binary? h

theorem HasBase.denote {Γ : Bases} {ρ : Valuation} {t : Term} {b : BaseType} (ht : t.HasBase Γ b)
    (hρ : ρ.Fits Γ) : ∃ v, t.denote ρ = some v ∧ v.base = b := by
  induction ht with
  | var hx => exact hρ _ _ hx
  | int n => exact ⟨_, rfl, rfl⟩
  | bool b => exact ⟨_, rfl, rfl⟩
  | unary _ ih =>
    obtain ⟨v, hv, hb⟩ := ih
    obtain ⟨w, hw, hb'⟩ := Value.unary?_base hb
    exact ⟨w, by rw [Term.denote, hv]; exact hw, hb'⟩
  | binary hop _ _ ihl ihr =>
    obtain ⟨u, hu, hub⟩ := ihl
    obtain ⟨v, hv, hvb⟩ := ihr
    obtain ⟨w, hw, hwb⟩ := Value.binary?_base hop hub hvb
    exact ⟨w, by rw [denote_binary hu hv (hub.trans hvb.symm), hw], hwb⟩

/-- A predicate is true or false. -/
theorem HasBase.holds_or {Γ : Bases} {ρ : Valuation} {t : Term} (ht : t.HasBase Γ .bool) (hρ : ρ.Fits Γ) :
    t.Holds ρ ∨ t.denote ρ = some (.bool false) := by
  obtain ⟨v, hv, hb⟩ := ht.denote hρ
  rcases v with _ | _ | _
  · cases hb
  · exact .inr hv
  · exact .inl hv

/-- The operands of a logical operation are predicates. -/
theorem HasBase.of_isLogical {Γ : Bases} {op : BinaryOp} {l r : Term} {b : BaseType}
    (ht : (Term.binary op l r).HasBase Γ b) (hop : op.isLogical = true) :
    l.HasBase Γ .bool ∧ r.HasBase Γ .bool := by
  cases ht with
  | @binary _ _ _ a _ hresult hl hr =>
    obtain rfl : a = .bool := by
      cases op <;> cases a <;> simp [BinaryOp.isLogical, BinaryOp.resultOn?] at hop hresult ⊢
    exact ⟨hl, hr⟩

/-! ### Substitution -/

theorem HasBase.subst {Γ Δ : Bases} {t : Term} {b : BaseType} {σ : String → Option Term} (ht : t.HasBase Γ b)
    (h : ∀ x ∈ t.freeVars, ∀ b, Γ x = some b → ((σ x).getD (.var x)).HasBase Δ b) :
    (t.subst σ).HasBase Δ b := by
  induction ht with
  | @var x b hx => exact h x (by simp [freeVars]) b hx
  | int n => exact .int n
  | bool b => exact .bool b
  | unary _ ih => exact .unary (ih h)
  | binary hop _ _ ihl ihr =>
    simp only [mem_freeVars_binary] at h
    exact .binary hop (ihl fun x hx => h x (.inl hx)) (ihr fun x hx => h x (.inr hx))

theorem mem_freeVars_subst {t : Term} {σ : String → Option Term} {x : String} (h : x ∈ (t.subst σ).freeVars) :
    ∃ y ∈ t.freeVars, x ∈ ((σ y).getD (.var y)).freeVars := by
  induction t with
  | var y => exact ⟨y, by simp [freeVars], h⟩
  | int n => simp [subst, freeVars] at h
  | bool b => simp [subst, freeVars] at h
  | unary op t ih => exact ih h
  | binary op l r ihl ihr =>
    simp only [mem_freeVars_binary]
    rcases mem_freeVars_binary.1 h with h | h
    · obtain ⟨y, hy, hx⟩ := ihl h
      exact ⟨y, .inl hy, hx⟩
    · obtain ⟨y, hy, hx⟩ := ihr h
      exact ⟨y, .inr hy, hx⟩

theorem mem_freeVars_rename {t : Term} {old new x : String} (h : x ∈ (t.rename old new).freeVars) :
    x = new ∨ x ∈ t.freeVars ∧ x ≠ old := by
  obtain ⟨y, hy, hx⟩ := mem_freeVars_subst h
  rw [single] at hx
  split at hx
  next => exact .inl (List.mem_singleton.1 hx)
  next hne =>
    obtain rfl := List.mem_singleton.1 hx
    exact .inr ⟨hy, hne⟩

theorem subst_none (t : Term) : t.subst (fun _ => none) = t := by
  induction t with
  | var x => rfl
  | int n => rfl
  | bool b => rfl
  | unary op t ih => rw [Term.subst, ih]
  | binary op l r ihl ihr => rw [Term.subst, ihl, ihr]

theorem subst_congr {σ τ : String → Option Term} {t : Term}
    (h : ∀ x ∈ t.freeVars, (σ x).getD (.var x) = (τ x).getD (.var x)) : t.subst σ = t.subst τ := by
  induction t with
  | var x => exact h x (List.mem_singleton_self x)
  | int n => rfl
  | bool b => rfl
  | unary op t ih => rw [subst, subst, ih h]
  | binary op l r ihl ihr =>
    simp only [mem_freeVars_binary] at h
    rw [subst, subst, ihl fun x hx => h x (.inl hx), ihr fun x hx => h x (.inr hx)]

/-- Two substitutions one after the other are one. -/
theorem subst_subst (σ τ : String → Option Term) (t : Term) :
    (t.subst σ).subst τ = t.subst fun x => some (((σ x).getD (.var x)).subst τ) := by
  induction t with
  | var x => rfl
  | int n => rfl
  | bool b => rfl
  | unary op t ih => simp only [subst, ih]
  | binary op l r ihl ihr => simp only [subst, ihl, ihr]

theorem HasBase.mono {Γ Δ : Bases} {t : Term} {b : BaseType} (ht : t.HasBase Γ b)
    (h : ∀ x ∈ t.freeVars, ∀ b, Γ x = some b → Δ x = some b) : t.HasBase Δ b := by
  rw [← subst_none t]
  exact ht.subst fun x hx b hb => .var (h x hx b hb)

/-- The variables of a typed term have a base type. -/
theorem HasBase.bound {Γ : Bases} {t : Term} {b : BaseType} (ht : t.HasBase Γ b) {x : String}
    (hx : x ∈ t.freeVars) : (Γ x).isSome := by
  induction ht with
  | var hy =>
    simp only [freeVars, List.mem_singleton] at hx
    rw [hx, hy]
    rfl
  | int n => simp [freeVars] at hx
  | bool b => simp [freeVars] at hx
  | unary _ ih => exact ih hx
  | binary _ _ _ ihl ihr => exact (mem_freeVars_binary.1 hx).elim ihl ihr

end Term

end LayerCheck
