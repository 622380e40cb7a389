import Mathlib
import LayerCheck.Proofs.Refinement.Positional
import LayerCheck.Proofs.Refinement.Query

/-! Scopes as descriptions of the state of a run. A scope speaks of its variables and of the temporaries
made so far only, so that a new temporary or a new variable can get any value; and moving the value of a
variable to a temporary leaves nothing but declared types that speak of the variable, so that it can get a new value
as long as these still hold. -/
namespace LayerCheck

open Liquid (temporaryName temporaryName_injective not_plain_temporaryName)

namespace Scope

variable {declared : NameMap RefinedType} {s s' : Scope} {made made' : Nat} {ρ ρ' : Valuation} {x : String}

/-- The names that what is known in a scope may mention: its variables, and the temporaries made so far. -/
def Names (s : Scope) (made : Nat) (x : String) : Prop :=
  (s.vars.get? x).isSome ∨ ∃ i < made, x = temporaryName i

/-- A scope that speaks of nothing else. -/
structure Closed (s : Scope) (made : Nat) : Prop where
  sorted : s.vars.Sorted
  plain : ∀ x w, s.vars.get? x = some w → Plain x
  mentions : ∀ x w, s.vars.get? x = some w → ∀ y, w.ty.Mentions y → s.Names made y
  temporaries : ∀ t ∈ s.temporaries, (∃ i < made, t.name = temporaryName i) ∧
    ∀ y ∈ t.fact.freeVars, s.Names made y
  path : ∀ c ∈ s.path, ∀ y ∈ c.freeVars, s.Names made y

/-- A scope that keeps given declared types, and in which no inferred type is about its own variable. -/
structure WellFormed (declared : NameMap RefinedType) (s : Scope) (made : Nat) : Prop extends Closed s made where
  declared_iff : ∀ x ty, declared.get? x = some ty ↔ s.vars.get? x = some ⟨ty, true⟩
  inferred : ∀ x w, s.vars.get? x = some w → w.declared = false → ¬ w.ty.Mentions x
  bound : ∀ x w, s.vars.get? x = some w → w.declared = false → ∀ r, w.ty.refinement = some r →
    ∃ n, r.name = boundName n

/-- What is known in a scope is true of some values. -/
structure Describes (s : Scope) (ρ : Valuation) : Prop where
  vars : ∀ x w, s.vars.get? x = some w → ∃ v, ρ x = some v ∧ w.ty.Admits ρ v
  temporaries : ∀ t ∈ s.temporaries, (∃ v, ρ t.name = some v ∧ v.base = t.base) ∧ t.fact.Holds ρ
  path : ∀ c ∈ s.path, c.Holds ρ

/-- Nothing that is known in a scope mentions a name, apart from declared types. -/
structure Silent (s : Scope) (x : String) : Prop where
  inferred : ∀ y w, s.vars.get? y = some w → w.declared = false → ¬ w.ty.Mentions x
  temporaries : ∀ t ∈ s.temporaries, t.name ≠ x ∧ x ∉ t.fact.freeVars
  path : ∀ c ∈ s.path, x ∉ c.freeVars

/-- The declared types that mention a variable still hold once it has another value. -/
def Survives (s : Scope) (ρ : Valuation) (x : String) (v : Value) : Prop :=
  ∀ y ty u, s.vars.get? y = some ⟨ty, true⟩ → ty.Mentions x → ρ y = some u → ty.Admits (ρ.set x v) u

/-! ### Names -/

theorem Names.mono (h : s.Names made x) (hvars : ∀ x, (s.vars.get? x).isSome → (s'.vars.get? x).isSome)
    (hmade : made ≤ made') : s'.Names made' x := by
  rcases h with h | ⟨i, hi, rfl⟩
  · exact .inl (hvars x h)
  · exact .inr ⟨i, Nat.lt_of_lt_of_le hi hmade, rfl⟩

theorem Closed.names_ne_temporaryName (h : s.Closed made) (hx : s.Names made x) :
    x ≠ temporaryName made := by
  rintro rfl
  rcases hx with hx | ⟨i, hi, heq⟩
  · obtain ⟨w, hw⟩ := Option.isSome_iff_exists.1 hx
    exact not_plain_temporaryName _ (h.plain _ w hw)
  · exact absurd (temporaryName_injective heq) (Nat.ne_of_gt hi)

theorem Closed.not_names_boundName (h : s.Closed made) (n : Nat) :
    ¬ s.Names made (boundName (n + 1)) := by
  rintro (hx | ⟨i, -, heq⟩)
  · obtain ⟨w, hw⟩ := Option.isSome_iff_exists.1 hx
    refine absurd (h.plain _ w hw) ?_
    cases n with
    | zero => decide
    | succ n => simp [Plain, toList_boundName_add_two]
  · exact boundName_ne_temporaryName _ _ heq

theorem Closed.silent (h : s.Closed made) (hx : ¬ s.Names made x) : s.Silent x := by
  refine ⟨fun y w hy _ hm => hx (h.mentions y w hy x hm), fun t ht => ⟨?_, ?_⟩, fun c hc hm => hx (h.path c hc x hm)⟩
  · rintro rfl
    exact hx (.inr (h.temporaries t ht).1)
  · exact fun hm => hx ((h.temporaries t ht).2 x hm)

theorem Closed.survives (h : s.Closed made) (hx : ¬ s.Names made x) (v : Value) : s.Survives ρ x v :=
  fun y _ _ hy hm _ => absurd (h.mentions y _ hy x hm) hx

theorem Closed.mono (h : s.Closed made) (hmade : made ≤ made') : s.Closed made' where
  sorted := h.sorted
  plain := h.plain
  mentions x w hx y hy := (h.mentions x w hx y hy).mono (fun _ => id) hmade
  temporaries t ht := by
    obtain ⟨⟨i, hi, hname⟩, hfact⟩ := h.temporaries t ht
    exact ⟨⟨i, Nat.lt_of_lt_of_le hi hmade, hname⟩, fun y hy => (hfact y hy).mono (fun _ => id) hmade⟩
  path c hc y hy := (h.path c hc y hy).mono (fun _ => id) hmade

/-- Being well-formed depends on the variables of a closed scope alone. -/
theorem WellFormed.of_closed (h : s.WellFormed declared made) (hvars : s'.vars = s.vars) (hclosed : s'.Closed made') :
    s'.WellFormed declared made' where
  toClosed := hclosed
  declared_iff := hvars ▸ h.declared_iff
  inferred := hvars ▸ h.inferred
  bound := hvars ▸ h.bound

/-! ### What is true in a scope -/

theorem Describes.fits (h : s.Describes ρ) : ρ.Fits s.baseOf? := by
  intro x b hb
  rw [baseOf?] at hb
  split at hb
  next w hx =>
    cases hb
    obtain ⟨v, hv, hadmits⟩ := h.vars x w hx
    exact ⟨v, hv, hadmits.1⟩
  next =>
    obtain ⟨t, ht, rfl⟩ := Option.map_eq_some_iff.1 hb
    obtain rfl : t.name = x := by simpa using List.find?_some ht
    exact (h.temporaries t (List.mem_of_find?_eq_some ht)).1

theorem Describes.holds_assumptions (hs : s.vars.Sorted) (h : s.Describes ρ) {premise : Term}
    (hp : premise.Holds ρ) : ∀ a ∈ s.assumptions premise, a.fact.Holds ρ := by
  intro a ha
  simp only [assumptions, List.mem_append, List.mem_map, List.mem_singleton] at ha
  rcases ha with ((⟨⟨x, w⟩, hx, rfl⟩ | ⟨t, ht, rfl⟩) | ⟨c, hc, rfl⟩) | rfl
  · obtain ⟨v, hv, -, hverdict⟩ := h.vars x w (hs.get? hx)
    exact (RefinedType.denote_predicateFor_var hv).trans hverdict
  · exact (h.temporaries t ht).2
  · exact h.path c hc
  · exact hp

theorem holds_set {t : Term} (h : t.Holds ρ) (hx : x ∉ t.freeVars) (v : Value) : t.Holds (ρ.set x v) := by
  rw [Term.Holds, ← h]
  refine Term.denote_congr fun z hz => Valuation.set_of_ne ρ ?_ v
  rintro rfl
  exact hx hz

/-- The value of a name that nothing mentions may change, along with its type if it has one, as long as the declared
types that mention it still hold. -/
theorem Describes.assign (h : s.Describes ρ) (hx : s.Silent x) {v : Value} (hsurvives : s.Survives ρ x v)
    (hvars : ∀ y w, s'.vars.get? y = some w → y = x ∧ w.ty.Admits (ρ.set x v) v ∨ y ≠ x ∧ s.vars.get? y = some w)
    (htemp : s'.temporaries = s.temporaries) (hpath : s'.path = s.path) : s'.Describes (ρ.set x v) := by
  constructor
  · intro y w hy
    rcases hvars y w hy with ⟨rfl, hw⟩ | ⟨hne, hy⟩
    · exact ⟨v, Valuation.set_self ρ y v, hw⟩
    · obtain ⟨u, hu, hbase, hverdict⟩ := h.vars y w hy
      refine ⟨u, (Valuation.set_of_ne ρ hne v).trans hu, ?_⟩
      by_cases hm : w.ty.Mentions x
      · obtain ⟨ty, _ | _⟩ := w
        · exact absurd hm (hx.inferred y _ hy rfl)
        · exact hsurvives y ty u hy hm hu
      · refine ⟨hbase, hverdict ▸ RefinedType.verdict_congr fun z hz => Valuation.set_of_ne ρ ?_ v⟩
        rintro rfl
        exact hm hz
  · intro t ht
    rw [htemp] at ht
    obtain ⟨⟨u, hu, hbase⟩, hfact⟩ := h.temporaries t ht
    obtain ⟨hne, hfree⟩ := hx.temporaries t ht
    exact ⟨⟨u, (Valuation.set_of_ne ρ hne v).trans hu, hbase⟩, holds_set hfact hfree v⟩
  · intro c hc
    rw [hpath] at hc
    exact holds_set (h.path c hc) (hx.path c hc) v

/-! ### New temporaries and conditions -/

theorem Describes.addTemporary (h : s.Describes ρ) {t : Temporary}
    (hbase : ∃ v, ρ t.name = some v ∧ v.base = t.base)
    (hfact : t.fact.Holds ρ) : (s.addTemporary t).Describes ρ := by
  refine ⟨h.vars, fun t' ht' => ?_, h.path⟩
  rcases List.mem_append.1 ht' with ht' | ht'
  · exact h.temporaries t' ht'
  · rw [List.mem_singleton.1 ht']
    exact ⟨hbase, hfact⟩

theorem Closed.addTemporary (h : s.Closed made) {t : Temporary} (hname : ∃ i < made, t.name = temporaryName i)
    (hfact : ∀ y ∈ t.fact.freeVars, s.Names made y) : (s.addTemporary t).Closed made where
  sorted := h.sorted
  plain := h.plain
  mentions := h.mentions
  temporaries t' ht' := by
    rcases List.mem_append.1 ht' with ht' | ht'
    · exact h.temporaries t' ht'
    · rw [List.mem_singleton.1 ht']
      exact ⟨hname, hfact⟩
  path := h.path

theorem Closed.addCondition (h : s.Closed made) {c : Term} (hc : ∀ y ∈ c.freeVars, s.Names made y) :
    (s.addCondition c).Closed made where
  sorted := h.sorted
  plain := h.plain
  mentions := h.mentions
  temporaries := h.temporaries
  path c' hc' := by
    rcases List.mem_append.1 hc' with hc' | hc'
    · exact h.path c' hc'
    · rw [List.mem_singleton.1 hc']
      exact hc

/-! ### New variables -/

section

variable {t : Term} {base : BaseType}

theorem get?_introduce {y : String} {w : VariableType}
    (hy : (s.vars.insert x ⟨.exactly base t, false⟩).get? y = some w) :
    y = x ∧ w = ⟨.exactly base t, false⟩ ∨ y ≠ x ∧ s.vars.get? y = some w := by
  rw [NameMap.get?_insert] at hy
  split at hy
  next hyx => exact .inl ⟨hyx, (Option.some.inj hy).symm⟩
  next hyx => exact .inr ⟨hyx, hy⟩

theorem Closed.introduce (h : s.Closed made) (hx : Plain x) (ht : ∀ y ∈ t.freeVars, s.Names made y)
    (base : BaseType) : ({ s with vars := s.vars.insert x ⟨.exactly base t, false⟩ } : Scope).Closed made := by
  have hnames : ∀ y, s.Names made y →
      ({ s with vars := s.vars.insert x ⟨.exactly base t, false⟩ } : Scope).Names made y := by
    intro y hy
    refine hy.mono (fun z hz => ?_) (Nat.le_refl made)
    dsimp only
    rw [NameMap.get?_insert]
    split
    · rfl
    · exact hz
  constructor
  case sorted => exact h.sorted.insert x _
  case plain =>
    intro y w hy
    rcases get?_introduce hy with ⟨rfl, -⟩ | ⟨-, hy⟩
    · exact hx
    · exact h.plain y w hy
  case mentions =>
    intro y w hy z hz
    rcases get?_introduce hy with ⟨rfl, rfl⟩ | ⟨-, hy⟩
    · exact hnames z (ht z (RefinedType.mentions_exactly hz))
    · exact hnames z (h.mentions y w hy z hz)
  case temporaries =>
    intro t ht
    exact ⟨(h.temporaries t ht).1, fun y hy => hnames y ((h.temporaries t ht).2 y hy)⟩
  case path => exact fun c hc y hy => hnames y (h.path c hc y hy)

theorem WellFormed.introduce (h : s.WellFormed declared made) (hx : Plain x)
    (hundeclared : ∀ w, s.vars.get? x = some w → w.declared = false)
    (ht : ∀ y ∈ t.freeVars, y ≠ x ∧ s.Names made y) (base : BaseType) :
    ({ s with vars := s.vars.insert x ⟨.exactly base t, false⟩ } : Scope).WellFormed declared made := by
  constructor
  case toClosed => exact h.toClosed.introduce hx (fun y hy => (ht y hy).2) base
  case declared_iff =>
    intro y ty
    dsimp only
    rw [NameMap.get?_insert, h.declared_iff]
    split
    next hyx =>
      subst hyx
      refine ⟨fun hy => ?_, fun hy => (by cases hy)⟩
      cases hundeclared _ hy
    next => exact Iff.rfl
  case inferred =>
    intro y w hy hw hm
    rcases get?_introduce hy with ⟨rfl, rfl⟩ | ⟨-, hy⟩
    · exact (ht y (RefinedType.mentions_exactly hm)).1 rfl
    · exact h.inferred y w hy hw hm
  case bound =>
    intro y w hy hw r hr
    rcases get?_introduce hy with ⟨rfl, rfl⟩ | ⟨-, hy⟩
    · have hfree : boundName 1 ∉ t.freeVars := fun hmem => h.not_names_boundName 0 (ht _ hmem).2
      obtain ⟨n, heq, -⟩ := RefinedType.exactly_eq hfree base
      rw [heq] at hr
      cases hr
      exact ⟨n, rfl⟩
    · exact h.bound y w hy hw r hr

end

/-! ### Overwritten values -/

section

variable {w : VariableType} {old new : String}

theorem redirect_of_declared (h : w.declared = true) : VariableType.redirect old new w = w := by
  rw [VariableType.redirect, h]

theorem declared_redirect : (VariableType.redirect old new w).declared = w.declared := by
  unfold VariableType.redirect
  split
  next h _ => split <;> simp [h]
  next => rfl

theorem base_redirect : (VariableType.redirect old new w).ty.base = w.ty.base := by
  unfold VariableType.redirect
  split
  next => split <;> rfl
  next => rfl

/-- The predicate of a redirected type has the same bound name. -/
theorem refinement_redirect {r : Refinement} (hr : (VariableType.redirect old new w).ty.refinement = some r) :
    ∃ r', w.ty.refinement = some r' ∧ r.name = r'.name ∧
      (r = r' ∧ (r'.name = old ∨ w.declared = true) ∨
        r'.name ≠ old ∧ r.predicate = r'.predicate.rename old new) := by
  unfold VariableType.redirect at hr
  split at hr
  next r' hd hr' =>
    split at hr
    next hname =>
      cases hr'.symm.trans hr
      exact ⟨r, hr', rfl, .inl ⟨rfl, .inl hname⟩⟩
    next hname =>
      cases hr
      exact ⟨r', hr', rfl, .inr ⟨hname, rfl⟩⟩
  next hne =>
    refine ⟨r, hr, rfl, .inl ⟨rfl, .inr ?_⟩⟩
    cases hd : w.declared with
    | true => rfl
    | false => exact absurd hr (hne r hd)

theorem mentions_redirect (h : (VariableType.redirect old new w).ty.Mentions x) :
    x = new ∨ w.ty.Mentions x ∧ (w.declared = false → x ≠ old) := by
  obtain ⟨r, hr, hx, hne⟩ := h
  obtain ⟨r', hr', hname, ⟨rfl, hcase⟩ | ⟨-, hpred⟩⟩ := refinement_redirect hr
  · refine .inr ⟨⟨r, hr', hx, hne⟩, fun hw => ?_⟩
    rcases hcase with rfl | hdecl
    · exact hne
    · cases hw.symm.trans hdecl
  · rw [hpred] at hx
    rcases Term.mem_freeVars_rename hx with hx | ⟨hx, hxold⟩
    · exact .inl hx
    · exact .inr ⟨⟨r', hr', hx, hname ▸ hne⟩, fun _ => hxold⟩

/-- Renaming makes no difference where both names have the same value. -/
theorem denote_rename_of_eq {t : Term} (h : ρ old = ρ new) : (t.rename old new).denote ρ = t.denote ρ := by
  rw [Term.denote_rename]
  refine Term.denote_congr fun x _ => ?_
  split
  next hx => rw [hx, h]
  next => rfl

theorem verdict_redirect (h : ρ old = ρ new)
    (hnew : w.declared = false → ∀ r, w.ty.refinement = some r → r.name ≠ new) (v : Value) :
    (VariableType.redirect old new w).ty.verdict ρ v = w.ty.verdict ρ v := by
  unfold VariableType.redirect
  split
  next r hd hr =>
    split
    next => rfl
    next hold =>
      rw [RefinedType.verdict, RefinedType.verdict, hr]
      refine denote_rename_of_eq ?_
      rw [Valuation.set_of_ne ρ (Ne.symm hold), Valuation.set_of_ne ρ (Ne.symm (hnew hd r hr)), h]
  next => rfl

end

theorem get?_vars_retire (s : Scope) (x : String) (w : VariableType) (t y : String) :
    (s.retire x w t).vars.get? y = (s.vars.get? y).map (VariableType.redirect x t) :=
  NameMap.get?_mapValues (fun _ => VariableType.redirect x t) s.vars y

theorem exists_of_vars_retire {w w' : VariableType} {t y : String} (h : (s.retire x w t).vars.get? y = some w') :
    ∃ w₀, s.vars.get? y = some w₀ ∧ VariableType.redirect x t w₀ = w' := by
  rw [get?_vars_retire] at h
  exact Option.map_eq_some_iff.1 h

theorem declared_retire {w : VariableType} {t y : String} {ty : RefinedType} :
    (s.retire x w t).vars.get? y = some ⟨ty, true⟩ ↔ s.vars.get? y = some ⟨ty, true⟩ := by
  rw [get?_vars_retire, Option.map_eq_some_iff]
  constructor
  · rintro ⟨w₀, hy, hw₀⟩
    have hd : w₀.declared = true := by rw [← declared_redirect, hw₀]
    rw [hy, ← hw₀, redirect_of_declared hd]
  · exact fun hy => ⟨_, hy, redirect_of_declared rfl⟩

/-- Once the value of a variable has moved to a temporary, nothing mentions the variable but declared types. -/
theorem Closed.silent_retire (h : s.Closed made) {w : VariableType} (hx : s.vars.get? x = some w)
    (hself : ¬ w.ty.Mentions x) : (s.retire x w (temporaryName made)).Silent x := by
  have hne : x ≠ temporaryName made := h.names_ne_temporaryName (.inl (by rw [hx]; rfl))
  have hterm (t : Term) : x ∉ (t.rename x (temporaryName made)).freeVars := by
    intro hmem
    rcases Term.mem_freeVars_rename hmem with hmem | ⟨-, hmem⟩
    · exact hne hmem
    · exact hmem rfl
  refine ⟨fun y w' hy hw' hm => ?_, fun t ht => ?_, fun c hc => ?_⟩
  · obtain ⟨w₀, -, rfl⟩ := exists_of_vars_retire hy
    rcases mentions_redirect hm with hm | ⟨-, hold⟩
    · exact hne hm
    · exact hold (declared_redirect.symm.trans hw') rfl
  · rcases List.mem_append.1 ht with ht | ht
    · obtain ⟨t₀, ht₀, rfl⟩ := List.mem_map.1 ht
      refine ⟨?_, hterm t₀.fact⟩
      obtain ⟨i, -, hname⟩ := (h.temporaries t₀ ht₀).1
      rintro hname'
      rw [← hname', hname] at hx
      exact not_plain_temporaryName i (h.plain _ w hx)
    · obtain rfl := List.mem_singleton.1 ht
      refine ⟨Ne.symm hne, fun hmem => ?_⟩
      rcases RefinedType.mem_freeVars_predicateFor hmem with hm | hm
      · exact hself hm
      · exact hne (List.mem_singleton.1 hm)
  · obtain ⟨c₀, -, rfl⟩ := List.mem_map.1 hc
    exact hterm c₀

theorem Closed.retire (h : s.Closed made) {w : VariableType} (hx : s.vars.get? x = some w) :
    (s.retire x w (temporaryName made)).Closed (made + 1) := by
  have hnames : ∀ y, s.Names made y → (s.retire x w (temporaryName made)).Names (made + 1) y := by
    intro y hy
    refine hy.mono (fun z hz => ?_) (Nat.le_succ made)
    rw [get?_vars_retire, Option.isSome_map]
    exact hz
  have hnew : (s.retire x w (temporaryName made)).Names (made + 1) (temporaryName made) :=
    .inr ⟨made, Nat.lt_succ_self made, rfl⟩
  have hrename : ∀ t : Term, (∀ y ∈ t.freeVars, s.Names made y) →
      ∀ y ∈ (t.rename x (temporaryName made)).freeVars,
        (s.retire x w (temporaryName made)).Names (made + 1) y := by
    intro t ht y hy
    rcases Term.mem_freeVars_rename hy with rfl | ⟨hy, -⟩
    · exact hnew
    · exact hnames y (ht y hy)
  constructor
  case sorted => exact h.sorted.mapValues fun _ => VariableType.redirect x (temporaryName made)
  case plain =>
    intro y w' hy
    obtain ⟨w₀, hy₀, -⟩ := exists_of_vars_retire hy
    exact h.plain y w₀ hy₀
  case mentions =>
    intro y w' hy z hz
    obtain ⟨w₀, hy₀, rfl⟩ := exists_of_vars_retire hy
    rcases mentions_redirect hz with rfl | ⟨hz, -⟩
    · exact hnew
    · exact hnames z (h.mentions y w₀ hy₀ z hz)
  case temporaries =>
    intro t ht
    rcases List.mem_append.1 ht with ht | ht
    · obtain ⟨t₀, ht₀, rfl⟩ := List.mem_map.1 ht
      obtain ⟨⟨i, hi, hname⟩, hfact⟩ := h.temporaries t₀ ht₀
      exact ⟨⟨i, Nat.lt_succ_of_lt hi, hname⟩, hrename t₀.fact hfact⟩
    · obtain rfl := List.mem_singleton.1 ht
      refine ⟨⟨made, Nat.lt_succ_self made, rfl⟩, fun y hy => ?_⟩
      rcases RefinedType.mem_freeVars_predicateFor hy with hm | hm
      · exact hnames y (h.mentions x w hx y hm)
      · rw [List.mem_singleton.1 hm]
        exact hnew
  case path =>
    intro c hc
    obtain ⟨c₀, hc₀, rfl⟩ := List.mem_map.1 hc
    exact hrename c₀ (h.path c₀ hc₀)

theorem WellFormed.retire (h : s.WellFormed declared made) {w : VariableType} (hx : s.vars.get? x = some w) :
    (s.retire x w (temporaryName made)).WellFormed declared (made + 1) := by
  constructor
  case toClosed => exact h.toClosed.retire hx
  case declared_iff => exact fun y ty => (h.declared_iff y ty).trans declared_retire.symm
  case inferred =>
    intro y w' hy hw' hm
    obtain ⟨w₀, hy₀, rfl⟩ := exists_of_vars_retire hy
    rcases mentions_redirect hm with heq | ⟨hm, -⟩
    · exact h.names_ne_temporaryName (.inl (by rw [hy₀]; rfl)) heq
    · exact h.inferred y w₀ hy₀ (declared_redirect.symm.trans hw') hm
  case bound =>
    intro y w' hy hw' r hr
    obtain ⟨w₀, hy₀, rfl⟩ := exists_of_vars_retire hy
    obtain ⟨r₀, hr₀, hname, -⟩ := refinement_redirect hr
    rw [hname]
    exact h.bound y w₀ hy₀ (declared_redirect.symm.trans hw') r₀ hr₀

/-- The value of a fresh temporary is up to us. -/
theorem Describes.set_temporary (hs : s.Closed made) (h : s.Describes ρ) (v : Value) :
    s.Describes (ρ.set (temporaryName made) v) := by
  have hfresh : ¬ s.Names made (temporaryName made) := fun hn => hs.names_ne_temporaryName hn rfl
  refine h.assign (hs.silent hfresh) (hs.survives hfresh v) (fun y w hy => .inr ⟨?_, hy⟩) rfl rfl
  rintro rfl
  exact hfresh (.inl (by rw [hy]; rfl))

theorem Describes.retire (hwf : s.WellFormed declared made) (h : s.Describes ρ) {w : VariableType} {v : Value}
    (hx : s.vars.get? x = some w) (hv : ρ x = some v) :
    (s.retire x w (temporaryName made)).Describes (ρ.set (temporaryName made) v) := by
  have h' := h.set_temporary hwf.toClosed v
  have hne : x ≠ temporaryName made := hwf.names_ne_temporaryName (.inl (by rw [hx]; rfl))
  have heq : ρ.set (temporaryName made) v x = ρ.set (temporaryName made) v (temporaryName made) := by
    rw [Valuation.set_of_ne ρ hne, Valuation.set_self, hv]
  constructor
  · intro y w' hy
    obtain ⟨w₀, hy₀, rfl⟩ := exists_of_vars_retire hy
    obtain ⟨u, hu, hbase, hverdict⟩ := h'.vars y w₀ hy₀
    refine ⟨u, hu, hbase.trans base_redirect.symm, ?_⟩
    rw [verdict_redirect heq, hverdict]
    intro hd r hr hname
    obtain ⟨n, hn⟩ := hwf.bound y w₀ hy₀ hd r hr
    exact boundName_ne_temporaryName n made (hn.symm.trans hname)
  · intro t ht
    rcases List.mem_append.1 ht with ht | ht
    · obtain ⟨t₀, ht₀, rfl⟩ := List.mem_map.1 ht
      obtain ⟨hbase, hfact⟩ := h'.temporaries t₀ ht₀
      exact ⟨hbase, (denote_rename_of_eq heq).trans hfact⟩
    · obtain rfl := List.mem_singleton.1 ht
      obtain ⟨u, hu, hbase, hverdict⟩ := h'.vars x w hx
      rw [heq] at hu
      exact ⟨⟨u, hu, hbase⟩, (RefinedType.denote_predicateFor_var hu).trans hverdict⟩
  · intro c hc
    obtain ⟨c₀, hc₀, rfl⟩ := List.mem_map.1 hc
    exact (denote_rename_of_eq heq).trans (h'.path c₀ hc₀)

end Scope

end LayerCheck
