import Mathlib
import LayerCheck.Fact.Table
import LayerCheck.Proofs.Name.Map

/-! Taking facts back. The maps of a table have no empty map in them, so they are told by the facts that they hold:
a table that has grown by added facts alone is, once these are taken back, exactly the table that it was. -/
namespace LayerCheck

namespace NameMap.Each

variable {α : Type} {P : α → Prop} {m n : NameMap (NameMap α)}

/-- A map under a name is there unless it would be empty. -/
theorem get?_eq (h : m.Each (Full P)) (x : String) :
    m.get? x = if (m.inner x).isEmpty then none else some (m.inner x) := by
  rw [NameMap.inner]
  cases hx : m.get? x with
  | none => rfl
  | some a =>
    have hne : a.isEmpty = false := List.isEmpty_eq_false_iff.2 (h.values x a hx).1
    rw [Option.getD_some, hne]
    rfl

theorem ext_inner (hm : m.Each (Full P)) (hn : n.Each (Full P)) (h : ∀ x, m.inner x = n.inner x) : m = n :=
  hm.sorted.ext hn.sorted fun x => by rw [hm.get?_eq, hn.get?_eq, h x]

end NameMap.Each

/-- Facts of one identifier in one layer are told by their keys. -/
theorem Fact.Place.eq_iff_key {p q : Fact.Place} (h : q.layer = p.layer ∧ q.identifier = p.identifier) :
    q = p ↔ q.key = p.key := by
  obtain ⟨layer, identifier, key⟩ := p
  obtain ⟨layer', identifier', key'⟩ := q
  obtain ⟨rfl, rfl⟩ := h
  simp

theorem Fact.Place.ne_of_not {p q : Fact.Place} (h : ¬ (q.layer = p.layer ∧ q.identifier = p.identifier)) : q ≠ p := by
  rintro rfl
  exact h ⟨rfl, rfl⟩

namespace FactMaps

variable {m n : FactMaps}

theorem factsAt_putAt (m : FactMaps) (layer identifier : String) (facts : NameMap Fact) (l i : String) :
    (m.putAt layer identifier facts).factsAt l i =
      if l = layer ∧ i = identifier then facts else m.factsAt l i := by
  rw [factsAt, putAt, NameMap.inner_insert]
  by_cases hl : l = layer
  · rw [if_pos hl, NameMap.inner_insert, hl]
    by_cases hi : i = identifier
    · rw [if_pos hi, if_pos ⟨rfl, hi⟩]
    · rw [if_neg hi, if_neg fun h => hi h.2]
      rfl
  · rw [if_neg hl, if_neg fun h => hl h.1]
    rfl

theorem factsAt_remove (m : FactMaps) (p : Fact.Place) (l i : String) :
    (m.remove p).factsAt l i =
      if l = p.layer ∧ i = p.identifier then (m.factsAt l i).erase p.key else m.factsAt l i := by
  have hfacts : NameMap.erase p.key ([] : NameMap Fact) = [] := rfl
  have hids : NameMap.within ([] : NameMap (NameMap Fact)) p.identifier (·.erase p.key) = [] := rfl
  rw [factsAt, remove, NameMap.inner_within hids]
  by_cases hl : l = p.layer
  · rw [if_pos hl, NameMap.inner_within hfacts, factsAt, hl]
    by_cases hi : i = p.identifier
    · rw [if_pos hi, if_pos ⟨rfl, hi⟩, hi]
    · rw [if_neg hi, if_neg fun h => hi h.2]
  · rw [if_neg hl, if_neg fun h => hl h.1]
    rfl

/-- Maps without empty maps are told by their facts. -/
theorem Proper.ext (hm : m.Proper) (hn : n.Proper)
    (h : ∀ layer identifier key, (m.factsAt layer identifier).get? key = (n.factsAt layer identifier).get? key) :
    m = n :=
  hm.ext_inner hn fun l => (hm.inner l).ext_inner (hn.inner l) fun i =>
    (hm.factsAt l i).sorted.ext (hn.factsAt l i).sorted (h l i)

end FactMaps

namespace FactTable

variable {t t' t'' : FactTable} {p q : Fact.Place} {a : Fact}

theorem facts?_eq (t : FactTable) (layer identifier : String) : t.facts? layer identifier =
    if (t.entries.factsAt layer identifier).isEmpty then none else some (t.entries.factsAt layer identifier) := by
  rw [facts?, t.proper.get?_eq, FactMaps.factsAt]
  have hinner := (t.proper.inner layer).get?_eq identifier
  split
  next hempty =>
    rw [List.isEmpty_iff.1 hempty]
    rfl
  next => exact hinner

theorem get?_eq (t : FactTable) (p : Fact.Place) :
    t.get? p = (t.entries.factsAt p.layer p.identifier).get? p.key := by
  rw [get?, facts?_eq]
  split
  next hempty =>
    rw [List.isEmpty_iff.1 hempty]
    rfl
  next => rfl

/-- A table is told by its facts and its journal. -/
theorem eq_of_get? (h : ∀ p, t.get? p = t'.get? p) (hj : t.journal = t'.journal) : t = t' := by
  obtain ⟨m, journal, hm⟩ := t
  obtain ⟨m', journal', hm'⟩ := t'
  have hentries : m = m' := hm.ext hm' fun layer identifier key => by
    have hp := h ⟨layer, identifier, key⟩
    rwa [get?_eq, get?_eq] at hp
  cases hentries
  cases hj
  rfl

/-! ### Writing -/

theorem get?_putAt {journal : List Fact.Place} {facts : NameMap Fact}
    (proper : (t.entries.putAt p.layer p.identifier facts).Proper) (q : Fact.Place) :
    (FactTable.mk (t.entries.putAt p.layer p.identifier facts) journal proper).get? q =
      if q.layer = p.layer ∧ q.identifier = p.identifier then facts.get? q.key else t.get? q := by
  rw [get?_eq, get?_eq, FactMaps.factsAt_putAt]
  split <;> rfl

/-- A place that is taken stays as it is, and so does the whole table. -/
theorem write_taken (h : t.contains p = true) :
    t.write p a = (.error (.ofCause (.duplicate p.layer p.identifier p.key)), t) := by
  have hkey : (t.entries.factsAt p.layer p.identifier).contains p.key = true := by
    rwa [contains, get?_eq] at h
  rw [write, dif_pos hkey]
  refine congrArg _ (eq_of_get? (fun q => ?_) rfl)
  rw [get?_putAt]
  split
  next hq => rw [get?_eq, hq.1, hq.2]
  next => rfl

theorem write_free (h : t.contains p = false) : (t.write p a).1 = .ok () ∧
    (t.write p a).2.journal = p :: t.journal ∧
    ∀ q, (t.write p a).2.get? q = if q = p then some a else t.get? q := by
  have hkey : ¬ (t.entries.factsAt p.layer p.identifier).contains p.key = true := by
    rw [contains, get?_eq] at h
    rw [NameMap.contains, h]
    exact Bool.false_ne_true
  rw [write, dif_neg hkey]
  refine ⟨rfl, rfl, fun q => ?_⟩
  rw [get?_putAt]
  split
  next hq =>
    rw [NameMap.get?_insert, get?_eq, hq.1, hq.2]
    simp only [Fact.Place.eq_iff_key hq]
  next hq => rw [if_neg (Fact.Place.ne_of_not hq)]

/-- The second table is the first with facts added to it, one after the other. -/
inductive Extends (t : FactTable) : FactTable → Prop
  | refl : t.Extends t
  | add {t' t'' : FactTable} {p : Fact.Place} {a : Fact} : t.Extends t' → t'.add p a = .ok t'' → t.Extends t''

theorem add_eq_ok (h : t.add p a = .ok t') : t.get? p = none ∧ t'.journal = p :: t.journal ∧
    ∀ q, t'.get? q = if q = p then some a else t.get? q := by
  cases hp : t.contains p with
  | true =>
    rw [add, write_taken hp] at h
    cases h
  | false =>
    obtain ⟨hok, hjournal, hget⟩ := write_free (a := a) hp
    rw [add, hok] at h
    cases h
    exact ⟨by simpa [contains] using hp, hjournal, hget⟩

theorem get?_add (h : t.add p a = .ok t') (q : Fact.Place) : t'.get? q = if q = p then some a else t.get? q :=
  (add_eq_ok h).2.2 q

/-! ### Taking back -/

theorem journal_undo (t : FactTable) : t.undo.journal = t.journal.tail := by
  rw [undo]
  split
  next h => rw [h, List.tail_nil]
  next h => rw [h, List.tail_cons]

theorem get?_undo {journal : List Fact.Place} (h : t.journal = p :: journal) (q : Fact.Place) :
    t.undo.get? q = if q = p then none else t.get? q := by
  rw [undo]
  split
  next hnil => cases hnil.symm.trans h
  next p' journal' hcons =>
    cases hcons.symm.trans h
    rw [get?_eq, get?_eq]
    dsimp only
    rw [FactMaps.factsAt_remove]
    split
    next hq =>
      rw [NameMap.get?_erase]
      simp only [Fact.Place.eq_iff_key hq]
    next hq => rw [if_neg (Fact.Place.ne_of_not hq)]

theorem undo_add (h : t.add p a = .ok t') : t'.undo = t := by
  obtain ⟨hp, hjournal, hget⟩ := add_eq_ok h
  refine eq_of_get? (fun q => ?_) ?_
  · rw [get?_undo hjournal, hget]
    split
    next hq => rw [hq, hp]
    next => rfl
  · rw [journal_undo, hjournal, List.tail_cons]

theorem size_add (h : t.add p a = .ok t') : t'.size = t.size + 1 := by
  rw [size, (add_eq_ok h).2.1, List.length_cons, size]

namespace Extends

theorem size_le (h : t.Extends t') : t.size ≤ t'.size := by
  induction h with
  | refl => exact Nat.le_refl _
  | add _ ha ih =>
    rw [size_add ha]
    omega

/-- Facts that were there stay as they are. -/
theorem get?_eq_some (h : t.Extends t') (hq : t.get? q = some a) : t'.get? q = some a := by
  induction h with
  | refl => exact hq
  | @add t' t'' p _ _ ha ih =>
    have hne : q ≠ p := by
      rintro rfl
      cases ih.symm.trans (add_eq_ok ha).1
    rw [get?_add ha, if_neg hne, ih]

/-- Taking back all that was added since a moment gives the table of that moment. -/
theorem rollback_eq (h : t.Extends t') : t'.rollback t.size = t := by
  induction h with
  | refl => simp [rollback, since, undoLast]
  | @add t' t'' p a hext ha ih =>
    have hsince : t''.since t.size = t'.since t.size + 1 := by
      have := hext.size_le
      rw [since, since, size_add ha]
      omega
    rw [rollback, hsince, undoLast, undo_add ha]
    exact ih

end Extends

end FactTable

end LayerCheck
