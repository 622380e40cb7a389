import Mathlib
import LayerCheck.Proofs.Term.Typing
import LayerCheck.Solver.Query

/-! What a query means: there are no values of its bindings, over unbounded integers, that make every
premise true and the conclusion false. -/
namespace LayerCheck

namespace Query

/-- An environment gives each binding in turn a value of its base type. -/
def Assigns (bs : List Binding) (env : Env) : Prop := env.map (fun p => (⟨p.1, p.2.base⟩ : Binding)) = bs

/-- Every premise is true and the conclusion is false. -/
structure Refuted (q : Query) (env : Env) : Prop where
  premises : ∀ p ∈ q.premises, p.eval .unbounded env = .ok (.bool true)
  conclusion : q.conclusion.eval .unbounded env = .ok (.bool false)

def Valid (q : Query) : Prop := ∀ env, Assigns q.bindings env → ¬ q.Refuted env

def names (bs : List Binding) : List String := bs.map (·.name)

/-- The base types of some bindings. -/
def bases (bs : List Binding) : Bases := fun x => (bs.find? (·.name == x)).map (·.base)

/-- Premises and conclusion are predicates over the bindings. -/
structure WellTyped (q : Query) : Prop where
  premises : ∀ p ∈ q.premises, p.HasBase (bases q.bindings) .bool
  conclusion : q.conclusion.HasBase (bases q.bindings) .bool

instance (q : Query) : Decidable q.WellTyped :=
  decidable_of_iff ((∀ p ∈ q.premises, p.HasBase (bases q.bindings) .bool) ∧
    q.conclusion.HasBase (bases q.bindings) .bool) ⟨fun h => ⟨h.1, h.2⟩, fun h => ⟨h.premises, h.conclusion⟩⟩

/-! ### Queries under valuations -/

/-- A valuation makes the premises true and the conclusion false. -/
def Falsified (q : Query) (ρ : Valuation) : Prop :=
  (∀ p ∈ q.premises, p.Holds ρ) ∧ q.conclusion.denote ρ = some (.bool false)

theorem refuted_iff {q : Query} {env : Env} : q.Refuted env ↔ q.Falsified env.get? := by
  constructor
  · rintro ⟨hp, hc⟩
    exact ⟨fun p h => Term.eval_eq_ok.1 (hp p h), Term.eval_eq_ok.1 hc⟩
  · rintro ⟨hp, hc⟩
    exact ⟨fun p h => Term.eval_eq_ok.2 (hp p h), Term.eval_eq_ok.2 hc⟩

/-- The values of exactly the variables with a base type, each of its type. -/
def Exactly (ρ : Valuation) (Γ : Bases) : Prop := ∀ x, (ρ x).map Value.base = Γ x

theorem Exactly.fits {ρ : Valuation} {Γ : Bases} (h : Exactly ρ Γ) : ρ.Fits Γ := by
  intro x b hb
  rw [← h x] at hb
  exact Option.map_eq_some_iff.1 hb

theorem bases_cons (b : Binding) (bs : List Binding) (x : String) :
    bases (b :: bs) x = if b.name = x then some b.base else bases bs x := by
  by_cases h : b.name = x <;> simp [bases, h]

theorem bases_eq_none {bs : List Binding} {x : String} : bases bs x = none ↔ x ∉ names bs := by
  simp [bases, names]

theorem bases_of_mem {bs : List Binding} (hn : (names bs).Nodup) {b : Binding} (hb : b ∈ bs) :
    bases bs b.name = some b.base := by
  induction bs with
  | nil => cases hb
  | cons c bs ih =>
    obtain ⟨hc, hn⟩ := List.nodup_cons.1 hn
    rw [bases_cons]
    rcases List.mem_cons.1 hb with rfl | hb
    · rw [if_pos rfl]
    · have hne : c.name ≠ b.name := by
        intro h
        exact hc (List.mem_map.2 ⟨b, hb, h.symm⟩)
      rw [if_neg hne, ih hn hb]

theorem mem_of_bases {bs : List Binding} {x : String} {b : BaseType} (h : bases bs x = some b) :
    ⟨x, b⟩ ∈ bs := by
  obtain ⟨binding, hfind, rfl⟩ := Option.map_eq_some_iff.1 h
  have hname := List.find?_some hfind
  rw [← eq_of_beq hname]
  exact List.mem_of_find?_eq_some hfind

theorem Assigns.exactly {bs : List Binding} {env : Env} (h : Assigns bs env) (hn : (names bs).Nodup) :
    Exactly env.get? (bases bs) := by
  subst h
  intro x
  induction env with
  | nil => rfl
  | cons p env ih =>
    obtain ⟨hp, hn⟩ := List.nodup_cons.1 hn
    have ih := ih hn
    rw [List.map_cons, bases_cons, Env.get?_cons]
    by_cases hx : p.1 = x
    · -- the name does not come again, so its value is this one
      have hnone : Env.get? env x = none := by
        rw [← Option.map_eq_none_iff (f := Value.base), ih, bases_eq_none, ← hx]
        exact hp
      simp [hnone, hx]
    · simp [hx, ih]

theorem get?_map_names (bs : List Binding) (f : String → Value) (x : String) :
    Env.get? (bs.map fun b => (b.name, f b.name)) x = if x ∈ names bs then some (f x) else none := by
  induction bs with
  | nil => rfl
  | cons b bs ih =>
    rw [List.map_cons, Env.get?_cons, ih]
    by_cases hx : x ∈ names bs
    · have hx' : x ∈ names (b :: bs) := List.mem_cons_of_mem _ hx
      rw [if_pos hx, if_pos hx']
      rfl
    · by_cases hb : b.name = x
      · have hx' : x ∈ names (b :: bs) := hb ▸ List.mem_cons_self
        rw [if_neg hx, if_pos hx', if_pos hb, hb]
        rfl
      · have hx' : x ∉ names (b :: bs) := fun h => (List.mem_cons.1 h).elim (fun h => hb h.symm) hx
        rw [if_neg hx, if_neg hx', if_neg hb]
        rfl

/-- The terms of a typed query mention its bindings only. -/
theorem WellTyped.closed {q : Query} (hw : q.WellTyped) {t : Term} (ht : t ∈ q.conclusion :: q.premises)
    {x : String} (hx : x ∈ t.freeVars) : x ∈ names q.bindings := by
  have htyped : t.HasBase (bases q.bindings) .bool := by
    rcases List.mem_cons.1 ht with rfl | ht
    · exact hw.conclusion
    · exact hw.premises t ht
  refine Decidable.byContradiction fun hnot => ?_
  have hsome := htyped.bound hx
  rw [bases_eq_none.2 hnot] at hsome
  cases hsome

/-- A typed query looks at the values of its bindings only. -/
theorem Falsified.congr {q : Query} (hw : q.WellTyped) {ρ ρ' : Valuation} (h : ∀ x ∈ names q.bindings, ρ x = ρ' x)
    (hf : q.Falsified ρ) : q.Falsified ρ' := by
  have hsame : ∀ t ∈ q.conclusion :: q.premises, t.denote ρ' = t.denote ρ :=
    fun t ht => Term.denote_congr fun x hx => (h x (hw.closed ht hx)).symm
  refine ⟨fun p hp => (hsame p (List.mem_cons_of_mem _ hp)).trans (hf.1 p hp), ?_⟩
  rw [hsame _ List.mem_cons_self]
  exact hf.2

/-- Values that suit the bindings can be written as an environment. -/
theorem exists_assigns {ρ : Valuation} {bs : List Binding}
    (h : ∀ b ∈ bs, ∃ v, ρ b.name = some v ∧ v.base = b.base) :
    ∃ env, Assigns bs env ∧ ∀ x, env.get? x = if x ∈ names bs then ρ x else none := by
  let f : String → Value := fun x => (ρ x).getD (.bool false)
  refine ⟨bs.map fun b => (b.name, f b.name), ?_, fun x => ?_⟩
  · rw [Assigns, List.map_map]
    have hid : ∀ b ∈ bs, (⟨b.name, (f b.name).base⟩ : Binding) = id b := by
      intro b hb
      obtain ⟨v, hv, hvb⟩ := h b hb
      simp [f, hv, hvb]
    exact (List.map_congr_left hid).trans (List.map_id bs)
  · rw [get?_map_names]
    split
    next hx =>
      obtain ⟨b, hb, rfl⟩ := List.mem_map.1 hx
      obtain ⟨v, hv, -⟩ := h b hb
      simp [f, hv]
    next => rfl

/-- Some values of the bindings make the premises true and the conclusion false. -/
def Falsifiable (q : Query) : Prop := ∃ ρ, Exactly ρ (bases q.bindings) ∧ q.Falsified ρ

theorem falsifiable_of_refuted {q : Query} {env : Env} (hn : (names q.bindings).Nodup)
    (ha : Assigns q.bindings env) (h : q.Refuted env) : q.Falsifiable :=
  ⟨env.get?, ha.exactly hn, refuted_iff.1 h⟩

theorem Falsifiable.exists_refuted {q : Query} (hn : (names q.bindings).Nodup) (h : q.Falsifiable) :
    ∃ env, Assigns q.bindings env ∧ q.Refuted env := by
  obtain ⟨ρ, hρ, hf⟩ := h
  obtain ⟨env, ha, hget⟩ := exists_assigns fun b hb => hρ.fits b.name b.base (bases_of_mem hn hb)
  refine ⟨env, ha, refuted_iff.2 ?_⟩
  have hsame : env.get? = ρ := by
    funext x
    rw [hget]
    split
    next => rfl
    next hx => exact (Option.map_eq_none_iff.1 ((hρ x).trans (bases_eq_none.2 hx))).symm
  rw [hsame]
  exact hf

theorem valid_iff {q : Query} (hn : (names q.bindings).Nodup) : q.Valid ↔ ¬ q.Falsifiable := by
  constructor
  · intro hv hf
    obtain ⟨env, ha, hr⟩ := hf.exists_refuted hn
    exact hv env ha hr
  · intro hf env ha hr
    exact hf (falsifiable_of_refuted hn ha hr)

end Query

end LayerCheck
