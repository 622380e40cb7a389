import Mathlib
import LayerCheck.Proofs.Refinement.Membership

/-! Signatures with positional names. A signature whose predicates are typed over the declared variables
and the names of the earlier arguments is still typed once those names are positional ones, so that its
predicates mention nothing but positional names, their own bound name and declared variables. -/
namespace LayerCheck

/-! ### Items by positional names -/

namespace Canonical

/-- The item with a positional name, where the first one has a given position. -/
def slot? {α : Type} (position : Nat) : List α → String → Option α
  | [], _ => none
  | a :: as, x => if x = nameAt position then some a else slot? (position + 1) as x

attribute [grind =] slot?

variable {α : Type} {as : List α} {a : α} {position : Nat} {x : String}

theorem slot?_append_singleton : slot? position (as ++ [a]) x =
    if x = nameAt (position + as.length) then some a else slot? position as x := by
  induction as generalizing position with
  | nil => simp [slot?]
  | cons b as ih =>
    rw [List.cons_append, slot?, ih, slot?, List.length_cons]
    by_cases h : x = nameAt position
    · have hne : x ≠ nameAt (position + (as.length + 1)) := by
        intro h'
        have := nameAt_injective (h.symm.trans h')
        omega
      rw [if_pos h, if_pos h, if_neg hne]
    · rw [if_neg h, if_neg h, Nat.add_right_comm, Nat.add_assoc]

theorem slot?_of_plain (h : Plain x) : slot? position as x = none := by
  induction as generalizing position with
  | nil => rfl
  | cons a as ih =>
    have hne : x ≠ nameAt position := by
      rintro rfl
      exact not_plain_nameAt _ h
    rw [slot?, if_neg hne, ih]

theorem slot?_nameAt (position : Nat) (as : List α) (i : Nat) :
    slot? position as (nameAt (position + i)) = as[i]? := by
  induction as generalizing position i with
  | nil => rfl
  | cons a as ih =>
    rw [slot?]
    cases i with
    | zero => rw [Nat.add_zero, if_pos rfl, List.getElem?_cons_zero]
    | succ i =>
      have hne : nameAt (position + (i + 1)) ≠ nameAt position := by
        intro h
        have := nameAt_injective h
        omega
      rw [if_neg hne, List.getElem?_cons_succ, ← ih (position + 1) i, Nat.add_assoc, Nat.add_comm 1]

theorem slot?_eq_some (h : slot? position as x = some a) : ∃ i, as[i]? = some a ∧ x = nameAt (position + i) := by
  induction as generalizing position with
  | nil => cases h
  | cons b as ih =>
    rw [slot?] at h
    split at h
    next hx =>
      cases h
      exact ⟨0, rfl, hx⟩
    next =>
      obtain ⟨i, hi, hx⟩ := ih h
      exact ⟨i + 1, hi, by rw [hx, Nat.add_assoc, Nat.add_comm 1]⟩

theorem slot?_map {β : Type} (f : α → β) (position : Nat) (as : List α) (x : String) :
    slot? position (as.map f) x = (slot? position as x).map f := by
  induction as generalizing position with
  | nil => rfl
  | cons a as ih =>
    rw [List.map_cons, slot?, slot?, ih]
    split <;> rfl

end Canonical

open Canonical

/-- Values of arguments by their positional names, before those of variables. -/
def Valuation.withArgs (ρ : Valuation) (args : List Value) : Valuation := fun x => (slot? 0 args x).or (ρ x)

def Bases.withArgs (Γ : Bases) (args : List BaseType) : Bases := fun x => (slot? 0 args x).or (Γ x)

theorem Bases.withArgs_append (Γ : Bases) (args : List BaseType) (b : BaseType) :
    Γ.withArgs (args ++ [b]) = (Γ.withArgs args).set (nameAt args.length) b := by
  funext x
  rw [withArgs, set, withArgs, slot?_append_singleton, Nat.zero_add]
  split <;> rfl

theorem Valuation.Fits.withArgs {ρ : Valuation} {Γ : Bases} (h : ρ.Fits Γ) (args : List Value) :
    (ρ.withArgs args).Fits (Γ.withArgs (args.map Value.base)) := by
  intro x b hx
  rw [Bases.withArgs, slot?_map] at hx
  rw [Valuation.withArgs]
  cases hslot : slot? 0 args x with
  | none =>
    rw [hslot] at hx
    exact h x b hx
  | some v =>
    rw [hslot] at hx
    exact ⟨v, rfl, Option.some.inj hx⟩

/-! ### Typed signatures -/

namespace RefinedType

/-- The base types in the scope of the bound name of a type. -/
def bind (ty : RefinedType) (Γ : Bases) : Bases :=
  match ty.refinement with
  | some r => Γ.set r.name ty.base
  | none => Γ

/-- The predicate of a type is one over its bound name and the variables around it. -/
def WellTyped (Γ : Bases) (ty : RefinedType) : Prop :=
  ∀ r, ty.refinement = some r → r.predicate.HasBase (Γ.set r.name ty.base) .bool

instance (Γ : Bases) (ty : RefinedType) : Decidable (ty.WellTyped Γ) :=
  decidable_of_iff (∀ r ∈ ty.refinement, r.predicate.HasBase (Γ.set r.name ty.base) .bool) Iff.rfl

theorem WellTyped.mono {ty : RefinedType} {Γ Δ : Bases} (h : ty.WellTyped Γ)
    (hΓ : ∀ x b, Γ x = some b → Δ x = some b) : ty.WellTyped Δ := by
  refine fun r hr => (h r hr).mono fun x _ b hb => ?_
  rw [Bases.set] at hb ⊢
  split at hb
  next hx => rw [if_pos hx, hb]
  next hx => rw [if_neg hx, hΓ x b hb]

/-- A typed type mentions variables around it only. -/
theorem WellTyped.bound {ty : RefinedType} {Γ : Bases} (h : ty.WellTyped Γ) {x : String} (hx : ty.Mentions x) :
    (Γ x).isSome := by
  obtain ⟨r, hr, hmem, hne⟩ := hx
  have hbound := (h r hr).bound hmem
  rwa [Bases.set, if_neg hne] at hbound

/-- A type over positional arguments mentions those and variables around it. -/
theorem WellTyped.mentions {ty : RefinedType} {Γ : Bases} {bs : List BaseType} (h : ty.WellTyped (Γ.withArgs bs))
    {x : String} (hx : ty.Mentions x) : (∃ i < bs.length, x = nameAt i) ∨ (Γ x).isSome := by
  have hbound := h.bound hx
  rw [Bases.withArgs] at hbound
  cases hslot : slot? 0 bs x with
  | none =>
    rw [hslot, Option.none_or] at hbound
    exact .inr hbound
  | some b =>
    obtain ⟨i, hi, hxi⟩ := slot?_eq_some hslot
    rw [Nat.zero_add] at hxi
    exact .inl ⟨i, (List.getElem?_eq_some_iff.1 hi).1, hxi⟩

end RefinedType

namespace Signature

/-- Each type of a signature is typed in the scope of the bound names of the arguments before it. -/
def TypedFrom (ret : RefinedType) (Γ : Bases) : List RefinedType → Prop
  | [] => ret.WellTyped Γ
  | arg :: args => arg.WellTyped Γ ∧ TypedFrom ret (arg.bind Γ) args

instance decidableTypedFrom (ret : RefinedType) (Γ : Bases) :
    (args : List RefinedType) → Decidable (TypedFrom ret Γ args)
  | [] => inferInstanceAs (Decidable (ret.WellTyped Γ))
  | arg :: args =>
    have := decidableTypedFrom ret (arg.bind Γ) args
    inferInstanceAs (Decidable (_ ∧ _))

def WellTyped (Γ : Bases) (s : Signature) : Prop := TypedFrom s.ret Γ s.args

instance (Γ : Bases) (s : Signature) : Decidable (s.WellTyped Γ) := decidableTypedFrom s.ret Γ s.args

/-- Each argument is typed over the positional names of the arguments before it. -/
def PositionalFrom (Γ : Bases) (earlier : List BaseType) : List RefinedType → Prop
  | [] => True
  | arg :: args => arg.WellTyped (Γ.withArgs earlier) ∧ PositionalFrom Γ (earlier ++ [arg.base]) args

/-- A signature with positional names, over declared variables of given base types. -/
structure Positional (Γ : Bases) (s : Signature) : Prop where
  args : PositionalFrom Γ [] s.args
  ret : ∀ x, s.ret.Mentions x → (∃ i < s.args.length, x = nameAt i) ∨ (Γ x).isSome

theorem PositionalFrom.mentions {Γ : Bases} {earlier : List BaseType} {args : List RefinedType}
    (h : PositionalFrom Γ earlier args) {arg : RefinedType} (harg : arg ∈ args) {x : String} (hx : arg.Mentions x) :
    (∃ i < earlier.length + args.length, x = nameAt i) ∨ (Γ x).isSome := by
  induction args generalizing earlier with
  | nil => cases harg
  | cons arg' args ih =>
    obtain ⟨harg', hrest⟩ := h
    rcases List.mem_cons.1 harg with rfl | harg
    · refine (harg'.mentions hx).imp_left fun ⟨i, hi, hxi⟩ => ⟨i, ?_, hxi⟩
      exact Nat.lt_of_lt_of_le hi (Nat.le_add_right _ _)
    · refine (ih hrest harg).imp_left fun ⟨i, hi, hxi⟩ => ⟨i, ?_, hxi⟩
      rw [List.length_append, List.length_singleton] at hi
      rw [List.length_cons]
      omega

end Signature

/-! ### Positional names keep types -/

namespace Canonical

variable {Γ₀ Γ : Bases} {bs : List BaseType} {table : NameMap Term}

/-- A table gives each name in scope the position of an argument of its base type; the other names in scope
are declared variables. -/
structure Tabled (Γ₀ Γ : Bases) (bs : List BaseType) (table : NameMap Term) : Prop where
  found : ∀ x t, table.get? x = some t → ∃ i b, t = .var (nameAt i) ∧ bs[i]? = some b ∧ Γ x = some b
  other : ∀ x, table.get? x = none → Γ x = Γ₀ x

theorem tabled_nil (Γ₀ : Bases) : Tabled Γ₀ Γ₀ [] [] := ⟨fun x t h => (by cases h), fun x _ => rfl⟩

theorem getElem?_append_singleton {bs : List BaseType} {i : Nat} {b : BaseType} (h : bs[i]? = some b)
    (c : BaseType) : (bs ++ [c])[i]? = some b := by
  obtain ⟨hi, hb⟩ := List.getElem?_eq_some_iff.1 h
  rw [List.getElem?_append_left hi, h]

theorem Tabled.skip (h : Tabled Γ₀ Γ bs table) (b : BaseType) : Tabled Γ₀ Γ (bs ++ [b]) table := by
  refine ⟨fun x t hx => ?_, h.other⟩
  obtain ⟨i, c, ht, hc, hΓ⟩ := h.found x t hx
  exact ⟨i, c, ht, getElem?_append_singleton hc b, hΓ⟩

theorem Tabled.insert (h : Tabled Γ₀ Γ bs table) (x : String) (b : BaseType) :
    Tabled Γ₀ (Γ.set x b) (bs ++ [b]) (NameMap.insert x (.var (nameAt bs.length)) table) := by
  refine ⟨fun y t hy => ?_, fun y hy => ?_⟩
  · rw [NameMap.get?_insert] at hy
    split at hy
    next hyx =>
      cases hy
      exact ⟨bs.length, b, rfl, by simp, if_pos hyx⟩
    next hyx =>
      obtain ⟨i, c, ht, hc, hΓ⟩ := h.found y t hy
      exact ⟨i, c, ht, getElem?_append_singleton hc b, (if_neg hyx).trans hΓ⟩
  · rw [NameMap.get?_insert] at hy
    split at hy
    next => cases hy
    next hyx => exact (if_neg hyx).trans (h.other y hy)

/-- A predicate typed in a scope is typed over positional names after rewriting by the table. -/
theorem Tabled.hasBase (h : Tabled Γ₀ Γ bs table) (hΓ₀ : ∀ x, (Γ₀ x).isSome → Plain x) {p : Term}
    (hp : p.HasBase Γ .bool) : (p.subst table.get?).HasBase (Γ₀.withArgs bs) .bool := by
  refine hp.subst fun x _ b hb => ?_
  cases hx : table.get? x with
  | none =>
    rw [h.other x hx] at hb
    refine .var ?_
    rw [Bases.withArgs, slot?_of_plain (hΓ₀ x (by rw [hb]; rfl)), Option.none_or, hb]
  | some t =>
    obtain ⟨i, c, rfl, hc, hΓ⟩ := h.found x t hx
    refine .var ?_
    have hslot := slot?_nameAt 0 bs i
    rw [Nat.zero_add] at hslot
    rw [Bases.withArgs, hslot, hc, ← hΓ, hb]
    rfl

theorem resolve_eq_ok {p q : Term} (h : resolve table p = .ok q) : q = p.subst table.get? := by
  unfold resolve at h
  split at h
  next => cases h
  next => exact (Except.ok.inj h).symm

theorem positional_argumentsFrom (hΓ₀ : ∀ x, (Γ₀ x).isSome → Plain x) {ret : RefinedType}
    {args : List RefinedType} {refinements : List (Option Refinement)} (ht : Tabled Γ₀ Γ bs table)
    (hs : Signature.TypedFrom ret Γ args)
    (h : argumentsFrom bs.length table (args.map (·.refinement)) = .ok refinements) :
    refinements.length = args.length ∧ Signature.PositionalFrom Γ₀ bs
      (args.zipWith (fun arg refinement => ⟨arg.base, refinement⟩) refinements) := by
  induction args generalizing Γ bs table refinements with
  | nil =>
    cases h
    exact ⟨rfl, trivial⟩
  | cons arg args ih =>
    obtain ⟨harg, hs⟩ := hs
    have hlen : (bs ++ [arg.base]).length = bs.length + 1 := by simp
    rw [List.map_cons] at h
    cases hr : arg.refinement with
    | none =>
      rw [hr, argumentsFrom] at h
      obtain ⟨rest, hrest, h⟩ := bind_eq_ok.1 h
      cases h
      rw [RefinedType.bind, hr] at hs
      rw [← hlen] at hrest
      obtain ⟨hl, hrest⟩ := ih (ht.skip arg.base) hs hrest
      exact ⟨congrArg (· + 1) hl, fun r hr => (by cases hr), hrest⟩
    | some r =>
      rw [hr, argumentsFrom] at h
      obtain ⟨p, hp, h⟩ := bind_eq_ok.1 h
      obtain ⟨rest, hrest, h⟩ := bind_eq_ok.1 h
      cases h
      rw [RefinedType.bind, hr] at hs
      rw [← hlen] at hrest
      have ht' := ht.insert r.name arg.base
      obtain ⟨hl, hrest⟩ := ih ht' hs hrest
      refine ⟨congrArg (· + 1) hl, fun r' hr' => ?_, hrest⟩
      cases hr'
      rw [resolve_eq_ok hp, ← Bases.withArgs_append]
      exact ht'.hasBase hΓ₀ (harg r hr)

/-- The table of all arguments of a typed signature describes the scope of its result type. -/
theorem tabled_tableFrom {ret : RefinedType} {args : List RefinedType} (ht : Tabled Γ₀ Γ bs table)
    (hs : Signature.TypedFrom ret Γ args) :
    ∃ Γ', ret.WellTyped Γ' ∧ Tabled Γ₀ Γ' (bs ++ args.map (·.base)) (tableFrom bs.length table args) := by
  induction args generalizing Γ bs table with
  | nil => exact ⟨Γ, hs, by simpa [tableFrom] using ht⟩
  | cons arg args ih =>
    obtain ⟨-, hs⟩ := hs
    have hlen : (bs ++ [arg.base]).length = bs.length + 1 := by simp
    have hbs : bs ++ (arg :: args).map (·.base) = bs ++ [arg.base] ++ args.map (·.base) := by simp
    rw [tableFrom, hbs, ← hlen]
    cases hr : arg.refinement with
    | none =>
      rw [RefinedType.bind, hr] at hs
      exact ih (ht.skip arg.base) hs
    | some r =>
      rw [RefinedType.bind, hr] at hs
      exact ih (ht.insert r.name arg.base) hs

theorem mentions_result {ret ret' : RefinedType} (ht : Tabled Γ₀ Γ bs table) (hret : ret.WellTyped Γ)
    (h : result table ret = .ok ret') {x : String} (hx : ret'.Mentions x) :
    (∃ i < bs.length, x = nameAt i) ∨ (Γ₀ x).isSome := by
  unfold result at h
  cases hr : ret.refinement with
  | none =>
    rw [hr] at h
    cases h
    obtain ⟨r, hr', -⟩ := hx
    rw [hr] at hr'
    cases hr'
  | some r =>
    rw [hr] at h
    obtain ⟨p, hp, h⟩ := bind_eq_ok.1 h
    cases h
    obtain ⟨r', hr', hmem, hne⟩ := hx
    cases hr'
    rw [resolve_eq_ok hp] at hmem
    obtain ⟨y, hy, hxy⟩ := Term.mem_freeVars_subst hmem
    rw [NameMap.get?_erase] at hxy
    split at hxy
    next hyr => exact absurd ((List.mem_singleton.1 hxy).trans hyr) hne
    next hyr =>
      cases hy' : table.get? y with
      | none =>
        rw [hy'] at hxy
        obtain rfl : x = y := List.mem_singleton.1 hxy
        have hbound : (Γ.set r.name ret.base x).isSome := (hret r hr).bound hy
        rw [Bases.set, if_neg hyr, ht.other x hy'] at hbound
        exact .inr hbound
      | some t =>
        rw [hy'] at hxy
        obtain ⟨i, b, rfl, hb, -⟩ := ht.found y t hy'
        exact .inl ⟨i, (List.getElem?_eq_some_iff.1 hb).1, List.mem_singleton.1 hxy⟩

theorem positional_signature {Γ : Bases} (hΓ : ∀ x, (Γ x).isSome → Plain x) {function : String} {s s' : Signature}
    (hs : s.WellTyped Γ) (h : signature function s = .ok s') : s'.Positional Γ := by
  obtain ⟨_, -, h⟩ := bind_eq_ok.1 h
  obtain ⟨refinements, hargs, h⟩ := bind_eq_ok.1 h
  obtain ⟨ret, hret, h⟩ := bind_eq_ok.1 h
  cases h
  obtain ⟨hlen, hpositional⟩ := positional_argumentsFrom hΓ (tabled_nil Γ) hs hargs
  obtain ⟨Γ', hret', htable⟩ := tabled_tableFrom (tabled_nil Γ) hs
  refine ⟨hpositional, fun x hx => ?_⟩
  have hx := mentions_result htable hret' hret hx
  simpa [hlen] using hx

end Canonical

end LayerCheck
