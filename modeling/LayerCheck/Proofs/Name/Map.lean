import Mathlib
import LayerCheck.Name.Map
import LayerCheck.Proofs.Name.Set

/-! Maps from names: maps with one value, maps with changed values and maps from lists of names, parts of
maps, and that maps in order are told by their values. -/
namespace LayerCheck.NameMap

variable {α β : Type}

theorem get?_singleton {x y : String} {a b : α} (h : get? [(y, a)] x = some b) : x = y ∧ a = b := by
  rw [get?_cons] at h
  split at h
  next hx => exact ⟨hx, Option.some.inj h⟩
  next => cases h

theorem isSome_get?_of_mem {m : NameMap α} {x : String} {a : α} (h : (x, a) ∈ m) :
    (m.get? x).isSome := by
  induction m with
  | nil => cases h
  | cons p m ih =>
    rw [get?_cons]
    split
    next => rfl
    next hne =>
      rcases List.mem_cons.1 h with rfl | h
      · exact absurd rfl hne
      · exact ih h

theorem absent_of_lt {m : NameMap α} {p : String × α} (h : ∀ q ∈ m, p.1 < q.1) {x : String} (hx : x = p.1) :
    m.get? x = none := by
  cases ha : m.get? x with
  | none => rfl
  | some a => exact absurd (hx ▸ h (x, a) (mem_of_get? ha)) (String.lt_irrefl p.1)

/-- Maps in order with the same values are the same list. -/
theorem Sorted.ext {m n : NameMap α} (hm : m.Sorted) (hn : n.Sorted) (h : ∀ x, m.get? x = n.get? x) : m = n := by
  induction m generalizing n with
  | nil =>
    cases n with
    | nil => rfl
    | cons q n =>
      have hq := h q.1
      rw [get?_cons, if_pos rfl] at hq
      cases hq
  | cons p m ih =>
    cases n with
    | nil =>
      have hp := h p.1
      rw [get?_cons, if_pos rfl] at hp
      cases hp
    | cons q n =>
      -- the least names agree: each of them is a name of the other map
      have hpq : ¬ p.1 < q.1 := fun hlt => by
        have hp := h p.1
        rw [hn.get?_of_lt hlt, get?_cons, if_pos rfl] at hp
        cases hp
      have hqp : ¬ q.1 < p.1 := fun hlt => by
        have hq := h q.1
        rw [hm.get?_of_lt hlt, get?_cons, if_pos rfl] at hq
        cases hq
      have hname : p.1 = q.1 := String.le_antisymm (String.not_lt.1 hqp) (String.not_lt.1 hpq)
      have hvalue : p.2 = q.2 := by
        have hp := h p.1
        rw [get?_cons, get?_cons, if_pos rfl, if_pos hname] at hp
        exact Option.some.inj hp
      obtain ⟨hpm, hm'⟩ := List.pairwise_cons.1 hm
      obtain ⟨hqn, hn'⟩ := List.pairwise_cons.1 hn
      have hrest : m = n := by
        refine ih hm' hn' fun x => ?_
        have hx := h x
        rw [get?_cons, get?_cons, ← hname] at hx
        by_cases hxp : x = p.1
        · have hleft : NameMap.get? m x = none := absent_of_lt hpm hxp
          have hright : NameMap.get? n x = none := absent_of_lt hqn (hxp.trans hname)
          rw [hleft, hright]
        · rwa [if_neg hxp, if_neg hxp] at hx
      rw [Prod.ext hname hvalue, hrest]

theorem get?_mapValues (f : String → α → β) (m : NameMap α) (x : String) :
    get? (m.map fun p => (p.1, f p.1 p.2)) x = (m.get? x).map (f x) := by
  induction m with
  | nil => rfl
  | cons p m ih =>
    rw [List.map_cons, get?_cons, get?_cons, ih]
    by_cases h : x = p.1
    · simp [h]
    · simp [h]

theorem get?_modify (m : NameMap α) (x y : String) (f : α → α) :
    (m.modify x f).get? y = if y = x then (m.get? y).map f else m.get? y := by
  rw [modify, get?_mapValues fun z a => if z = x then f a else a]
  split <;> simp

/-- Changing the values of some names, where a second change of one does nothing. -/
theorem get?_foldl_modify {f : α → α} (hf : ∀ a, f (f a) = f a) (xs : List String) (m : NameMap α) (y : String) :
    get? (xs.foldl (fun m x => m.modify x f) m) y = if y ∈ xs then (m.get? y).map f else m.get? y := by
  induction xs generalizing m with
  | nil => simp
  | cons x xs ih =>
    rw [List.foldl_cons, ih, get?_modify]
    by_cases hx : y = x <;> by_cases hy : y ∈ xs <;> simp [hx, hy, Function.comp_def, hf]

theorem Sorted.mapValues {m : NameMap α} (hs : m.Sorted) (f : String → α → β) :
    NameMap.Sorted (m.map fun p => (p.1, f p.1 p.2)) :=
  List.Pairwise.map _ (fun _ _ h => h) hs

theorem mapValues_insert (f : String → α → β) (m : NameMap α) (x : String) (a : α) :
    (insert x a m).map (fun p => (p.1, f p.1 p.2)) = insert x (f x a) (m.map fun p => (p.1, f p.1 p.2)) := by
  induction m with
  | nil => rfl
  | cons p m ih =>
    rw [List.map_cons, insert, insert]
    split
    · rfl
    · split
      · rfl
      · rw [List.map_cons, ih]

theorem get?_map_pair (f : String → α) (xs : List String) (x : String) :
    get? (xs.map fun x => (x, f x)) x = if x ∈ xs then some (f x) else none := by
  induction xs with
  | nil => rfl
  | cons y xs ih =>
    rw [List.map_cons, get?_cons, ih]
    by_cases h : x = y
    · simp [h]
    · simp [h]

theorem get?_filter (m : NameMap α) (p : String → Bool) (x : String) :
    get? (m.filter fun q => p q.1) x = if p x then m.get? x else none := by
  induction m with
  | nil => exact (ite_self none).symm
  | cons q m ih =>
    rw [List.filter_cons, get?_cons]
    by_cases hx : x = q.1
    · subst hx
      by_cases hp : p q.1
      · rw [if_pos hp, get?_cons, if_pos rfl, if_pos hp, if_pos rfl]
      · rw [if_neg hp, ih, if_neg hp, if_neg hp]
    · rw [if_neg hx, ← ih]
      split
      next => rw [get?_cons, if_neg hx]
      next => rfl

theorem Sorted.keys {m : NameMap α} (h : m.Sorted) : NameSet.Sorted m.keys := List.Pairwise.map _ (fun _ _ hlt => hlt) h

theorem mem_keys {m : NameMap α} {x : String} (h : m.Sorted) : x ∈ m.keys ↔ ∃ a, m.get? x = some a := by
  constructor
  · intro hx
    obtain ⟨⟨y, a⟩, hy, rfl⟩ := List.mem_map.1 hx
    exact ⟨a, h.get? hy⟩
  · rintro ⟨a, ha⟩
    exact List.mem_map.2 ⟨(x, a), mem_of_get? ha, rfl⟩

theorem mem_keys_filter {m : NameMap α} {x : String} (h : m.Sorted) (r : α → Bool) :
    x ∈ keys (m.filter fun p => r p.2) ↔ ∃ a, m.get? x = some a ∧ r a = true := by
  constructor
  · intro hx
    obtain ⟨⟨y, a⟩, hy, rfl⟩ := List.mem_map.1 hx
    obtain ⟨hy, ha⟩ := List.mem_filter.1 hy
    exact ⟨a, h.get? hy, ha⟩
  · rintro ⟨a, ha, hr⟩
    exact List.mem_map.2 ⟨(x, a), List.mem_filter.2 ⟨mem_of_get? ha, hr⟩, rfl⟩

end LayerCheck.NameMap
