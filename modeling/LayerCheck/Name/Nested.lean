import LayerCheck.Name.Map

/-! Maps from names to maps. No map in them is empty: it is made with its first value and goes with its last. -/
namespace LayerCheck.NameMap

variable {α : Type}

/-- The map under a name, which is empty if there is none. -/
def inner (m : NameMap (NameMap α)) (x : String) : NameMap α := (m.get? x).getD []

/-- Puts a map under a name, or takes the name out if the map is empty. -/
def putBack (m : NameMap (NameMap α)) (x : String) (a : NameMap α) : NameMap (NameMap α) :=
  if a.isEmpty then m.erase x else m.insert x a

/-- Changes the map under a name, if there is one. -/
def within (m : NameMap (NameMap α)) (x : String) (f : NameMap α → NameMap α) : NameMap (NameMap α) :=
  match m.get? x with
  | some a => m.putBack x (f a)
  | none => m

/-- A map in order whose values have a property. -/
structure Each (P : α → Prop) (m : NameMap α) : Prop where
  sorted : m.Sorted
  values : ∀ x a, m.get? x = some a → P a

/-- A map in order that is not empty and whose values have a property. -/
def Full (P : α → Prop) (m : NameMap α) : Prop := m ≠ [] ∧ m.Each P

/-! ### Maps under names -/

theorem insert_ne_nil (x : String) (a : α) (m : NameMap α) : insert x a m ≠ [] := by
  cases m with
  | nil => simp [insert]
  | cons p m =>
    rw [insert]
    split
    next => simp
    next => split <;> simp

theorem inner_insert (m : NameMap (NameMap α)) (x y : String) (a : NameMap α) :
    (m.insert x a).inner y = if y = x then a else m.inner y := by
  rw [inner, get?_insert]
  split <;> rfl

theorem inner_putBack (m : NameMap (NameMap α)) (x y : String) (a : NameMap α) :
    (m.putBack x a).inner y = if y = x then a else m.inner y := by
  rw [putBack]
  split
  next ha =>
    rw [inner, get?_erase, List.isEmpty_iff.1 ha]
    split <;> rfl
  next => exact inner_insert m x y a

theorem inner_within {f : NameMap α → NameMap α} (hf : f [] = []) (m : NameMap (NameMap α)) (x y : String) :
    (m.within x f).inner y = if y = x then f (m.inner x) else m.inner y := by
  rw [within]
  split
  next a ha =>
    have hx : m.inner x = a := by rw [inner, ha, Option.getD_some]
    rw [inner_putBack, hx]
  next hnone =>
    have hx : m.inner x = [] := by rw [inner, hnone, Option.getD_none]
    split
    next hy => rw [hy, hx, hf]
    next => rfl

/-! ### Values with a property -/

namespace Each

variable {P : α → Prop} {m : NameMap α}

theorem nil : Each P [] := ⟨List.Pairwise.nil, fun x a h => by cases h⟩

theorem insert (h : m.Each P) (x : String) {a : α} (ha : P a) : (m.insert x a).Full P := by
  refine ⟨insert_ne_nil x a m, h.sorted.insert x a, fun y b hb => ?_⟩
  rw [get?_insert] at hb
  split at hb
  next =>
    cases hb
    exact ha
  next => exact h.values y b hb

theorem erase (h : m.Each P) (x : String) : (m.erase x).Each P := by
  refine ⟨h.sorted.filter _, fun y b hb => ?_⟩
  rw [get?_erase] at hb
  split at hb
  next => cases hb
  next => exact h.values y b hb

variable {n : NameMap (NameMap α)}

theorem inner (h : n.Each (Full P)) (x : String) : (n.inner x).Each P := by
  rw [NameMap.inner]
  cases hx : n.get? x with
  | none => exact nil
  | some a => exact (h.values x a hx).2

theorem putBack (h : n.Each (Full P)) (x : String) {a : NameMap α} (ha : a.Each P) :
    (n.putBack x a).Each (Full P) := by
  rw [NameMap.putBack]
  split
  next => exact h.erase x
  next hne => exact (h.insert x ⟨fun hnil => hne (List.isEmpty_iff.2 hnil), ha⟩).2

theorem within (h : n.Each (Full P)) (x : String) {f : NameMap α → NameMap α} (hf : ∀ a, a.Each P → (f a).Each P) :
    (n.within x f).Each (Full P) := by
  rw [NameMap.within]
  split
  next a ha => exact h.putBack x (hf a (h.values x a ha).2)
  next => exact h

end Each

end LayerCheck.NameMap
