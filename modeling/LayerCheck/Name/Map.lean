import LayerCheck.Name.Set

/-! Finite maps from names, kept as lists of pairs in increasing order of their names. -/
namespace LayerCheck

abbrev NameMap (α : Type) := List (String × α)

namespace NameMap

variable {α : Type}

def get? (m : NameMap α) (x : String) : Option α := m.lookup x

def contains (m : NameMap α) (x : String) : Bool := (m.get? x).isSome

/-- Adds a pair, or replaces the value of its name. -/
def insert (x : String) (a : α) : NameMap α → NameMap α
  | [] => [(x, a)]
  | (y, b) :: m =>
    if x < y then (x, a) :: (y, b) :: m else if x = y then (x, a) :: m else (y, b) :: insert x a m

/-- Changes the value of a name, if it has one. -/
def modify (x : String) (f : α → α) (m : NameMap α) : NameMap α :=
  m.map fun p => (p.1, if p.1 = x then f p.2 else p.2)

def erase (x : String) (m : NameMap α) : NameMap α := m.filter (·.1 != x)

def ofList (pairs : List (String × α)) : NameMap α := pairs.foldl (fun m p => insert p.1 p.2 m) []

def keys (m : NameMap α) : List String := m.map (·.1)

theorem get?_insert (m : NameMap α) (x y : String) (a : α) :
    get? (insert x a m) y = if y = x then some a else get? m y := by
  induction m with
  | nil =>
    by_cases h : y = x
    · simp [insert, get?, h]
    · simp [insert, get?, List.lookup_cons, beq_false_of_ne h, h]
  | cons p m ih =>
    obtain ⟨z, b⟩ := p
    rw [insert]
    split
    · by_cases h : y = x
      · simp [get?, h]
      · simp [get?, List.lookup_cons, beq_false_of_ne h, h]
    · split
      next hxz =>
        subst hxz
        by_cases h : y = x
        · simp [get?, h]
        · simp [get?, List.lookup_cons, beq_false_of_ne h, h]
      next hxz =>
        by_cases hz : y = z
        · subst hz
          have : ¬ y = x := fun h => hxz h.symm
          simp [get?, this]
        · simpa [get?, List.lookup_cons, beq_false_of_ne hz] using ih

theorem length_erase_lt {m : NameMap α} {x : String} {a : α} (h : m.get? x = some a) :
    (m.erase x).length < m.length := by
  induction m with
  | nil => simp [get?] at h
  | cons p m ih =>
    obtain ⟨y, b⟩ := p
    by_cases hy : x = y
    · have hle : (erase x m).length ≤ m.length := List.length_filter_le _ _
      have hx : erase x ((y, b) :: m) = erase x m := by simp [erase, hy]
      rw [hx, List.length_cons]
      omega
    · have hx : erase x ((y, b) :: m) = (y, b) :: erase x m := by simp [erase, Ne.symm hy]
      have step := ih (by simpa [get?, List.lookup_cons, beq_false_of_ne hy] using h)
      rw [hx, List.length_cons, List.length_cons]
      omega

/-! ### Maps in order -/

/-- The names come in strictly increasing order. -/
def Sorted (m : NameMap α) : Prop := m.Pairwise fun p q => p.1 < q.1

theorem get?_cons (p : String × α) (m : NameMap α) (x : String) :
    get? (p :: m) x = if x = p.1 then some p.2 else get? m x := by
  obtain ⟨y, a⟩ := p
  by_cases h : x = y
  · simp [get?, h]
  · simp [get?, List.lookup_cons, h, beq_false_of_ne h]

theorem mem_of_get? {m : NameMap α} {x : String} {a : α} (h : m.get? x = some a) : (x, a) ∈ m := by
  induction m with
  | nil => cases h
  | cons p m ih =>
    rw [get?_cons] at h
    split at h
    next hx =>
      cases h
      rw [hx]
      exact List.mem_cons_self
    next => exact List.mem_cons_of_mem _ (ih h)

theorem get?_erase (m : NameMap α) (x y : String) :
    (m.erase x).get? y = if y = x then none else m.get? y := by
  induction m with
  | nil => simp [erase, get?]
  | cons p m ih =>
    have hrest : erase x (p :: m) = if p.1 = x then erase x m else p :: erase x m := by
      by_cases h : p.1 = x <;> simp [erase, h]
    rw [hrest]
    split
    next h =>
      rw [ih, get?_cons, h]
      split <;> rfl
    next h =>
      rw [get?_cons, ih, get?_cons]
      split
      next hy =>
        rw [hy, if_neg h]
      next => rfl

theorem Sorted.get? {m : NameMap α} (hs : m.Sorted) {x : String} {a : α} (h : (x, a) ∈ m) :
    m.get? x = some a := by
  induction m with
  | nil => cases h
  | cons p m ih =>
    obtain ⟨hp, hs⟩ := List.pairwise_cons.1 hs
    rw [get?_cons]
    rcases List.mem_cons.1 h with rfl | h
    · rw [if_pos rfl]
    · have hlt : p.1 < x := hp (x, a) h
      have hne : x ≠ p.1 := fun e => String.lt_irrefl x (e ▸ hlt)
      rw [if_neg hne, ih hs h]

theorem Sorted.get?_of_lt {m : NameMap α} {p : String × α} (hs : Sorted (p :: m)) {x : String} (h : x < p.1) :
    NameMap.get? (p :: m) x = none := by
  cases hx : NameMap.get? (p :: m) x with
  | none => rfl
  | some a =>
    rcases List.mem_cons.1 (mem_of_get? hx) with rfl | hm
    · exact absurd h (String.lt_irrefl x)
    · have hlt : p.1 < x := (List.pairwise_cons.1 hs).1 (x, a) hm
      exact absurd (String.lt_trans h hlt) (String.lt_irrefl x)

theorem mem_insert {m : NameMap α} {x : String} {a : α} {p : String × α} (h : p ∈ insert x a m) :
    p = (x, a) ∨ p ∈ m := by
  induction m with
  | nil => exact .inl (List.mem_singleton.1 h)
  | cons q m ih =>
    rw [insert] at h
    split at h
    next => exact List.mem_cons.1 h
    next =>
      split at h
      next => exact (List.mem_cons.1 h).imp_right (List.mem_cons_of_mem _)
      next =>
        rcases List.mem_cons.1 h with rfl | h
        · exact .inr List.mem_cons_self
        · exact (ih h).imp_right (List.mem_cons_of_mem _)

theorem Sorted.insert {m : NameMap α} (hs : m.Sorted) (x : String) (a : α) : (insert x a m).Sorted := by
  induction m with
  | nil => exact List.pairwise_singleton _ _
  | cons p m ih =>
    obtain ⟨hp, hs'⟩ := List.pairwise_cons.1 hs
    rw [NameMap.insert]
    split
    next hlt =>
      refine List.pairwise_cons.2 ⟨fun q hq => ?_, hs⟩
      rcases List.mem_cons.1 hq with rfl | hq
      · exact hlt
      · exact String.lt_trans hlt (hp q hq)
    next hlt =>
      split
      next heq =>
        subst heq
        exact List.pairwise_cons.2 ⟨hp, hs'⟩
      next hne =>
        refine List.pairwise_cons.2 ⟨fun q hq => ?_, ih hs'⟩
        rcases mem_insert hq with rfl | hq
        · -- neither smaller nor equal, so greater
          exact Std.lt_of_le_of_ne (Std.not_lt.1 hlt) (Ne.symm hne)
        · exact hp q hq

theorem insert_insert (m : NameMap α) (x : String) (a b : α) : insert x b (insert x a m) = insert x b m := by
  induction m with
  | nil => rw [insert, insert, insert, if_neg (String.lt_irrefl x), if_pos rfl]
  | cons p m ih =>
    rw [insert]
    split
    next hlt => rw [insert, if_neg (String.lt_irrefl x), if_pos rfl, insert, if_pos hlt]
    next hlt =>
      split
      next heq => rw [insert, if_neg (String.lt_irrefl x), if_pos rfl, insert, if_neg hlt, if_pos heq]
      next hne => rw [insert, if_neg hlt, if_neg hne, ih, insert, if_neg hlt, if_neg hne]

/-- Where a value that passes a test gives way to one that does not, one value less passes it. -/
theorem Sorted.countP_insert_lt {m : NameMap α} (hs : m.Sorted) {x : String} {a b : α} (h : m.get? x = some a)
    {r : α → Bool} (ha : r a = true) (hb : r b = false) :
    (NameMap.insert x b m).countP (fun p => r p.2) < m.countP (fun p => r p.2) := by
  induction m with
  | nil => cases h
  | cons p m ih =>
    rw [NameMap.insert]
    split
    next hlt =>
      rw [hs.get?_of_lt hlt] at h
      cases h
    next =>
      rw [get?_cons] at h
      split
      next hx =>
        rw [if_pos hx] at h
        cases h
        simp [ha, hb]
      next hx =>
        rw [if_neg hx] at h
        have step := ih (List.pairwise_cons.1 hs).2 h
        simp only [List.countP_cons]
        omega

theorem Sorted.modify {m : NameMap α} (hs : m.Sorted) (x : String) (f : α → α) : (m.modify x f).Sorted :=
  List.Pairwise.map _ (fun _ _ h => h) hs

theorem Sorted.foldl_modify {m : NameMap α} (hs : m.Sorted) (f : α → α) (xs : List String) :
    Sorted (xs.foldl (fun m x => m.modify x f) m) := by
  induction xs generalizing m with
  | nil => exact hs
  | cons x xs ih => exact ih (hs.modify x f)

theorem sorted_map_pair {xs : NameSet} (hs : xs.Sorted) (f : String → α) : Sorted (xs.map fun x => (x, f x)) :=
  List.Pairwise.map _ (fun _ _ h => h) hs

theorem Sorted.filter {m : NameMap α} (hs : m.Sorted) (p : String × α → Bool) :
    NameMap.Sorted (List.filter p m) :=
  List.Pairwise.filter p hs

end NameMap

end LayerCheck
