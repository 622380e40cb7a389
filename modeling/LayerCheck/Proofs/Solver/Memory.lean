import Mathlib
import LayerCheck.Solver.Cache

/-! The memory of a cached solver. What a solver needs of a memory is said by what `get` and `put` do to its keys in the
order of their last use, and to the values of the keys; the list of entries meets it. -/
namespace LayerCheck.Cache

variable {c : Cache} {entries : List (String × Bool)} {key : String} {valid : Bool}

/-! ### Entries -/

/-- The entries with an answer put in front of them. -/
def touch (key : String) (valid : Bool) (entries : List (String × Bool)) : List (String × Bool) :=
  (key, valid) :: entries.filter (·.1 != key)

theorem mem_of_lookup (h : entries.lookup key = some valid) : (key, valid) ∈ entries := by
  obtain ⟨front, back, rfl, -⟩ := List.lookup_eq_some_iff.1 h
  exact List.mem_append_right _ List.mem_cons_self

theorem lookup_eq_none_iff : entries.lookup key = none ↔ key ∉ entries.map Prod.fst := by
  rw [List.lookup_eq_none_iff]
  constructor
  · intro h hmem
    obtain ⟨e, he, hkey⟩ := List.mem_map.1 hmem
    exact bne_iff_ne.1 (h e he) hkey.symm
  · intro h e he
    refine bne_iff_ne.2 fun hkey => h ?_
    rw [hkey]
    exact List.mem_map_of_mem he

theorem nodup_touch (h : (entries.map Prod.fst).Nodup) : ((touch key valid entries).map Prod.fst).Nodup := by
  rw [touch, List.map_cons, List.nodup_cons]
  refine ⟨?_, (List.filter_sublist.map _).nodup h⟩
  simp

theorem lookup_filter {k : String} (hk : k ≠ key) :
    (entries.filter (·.1 != key)).lookup k = entries.lookup k := by
  induction entries with
  | nil => rfl
  | cons e entries ih =>
    obtain ⟨k', valid'⟩ := e
    by_cases hkey : k' = key
    · have hne : (k == k') = false := by simpa [hkey] using hk
      rw [List.filter_cons_of_neg (by simp [hkey]), ih, List.lookup_cons, hne]
    · rw [List.filter_cons_of_pos (by simp [hkey]), List.lookup_cons, List.lookup_cons, ih]

theorem lookup_take (n : Nat) (k : String) :
    (entries.take n).lookup k = if k ∈ (entries.take n).map Prod.fst then entries.lookup k else none := by
  split
  next hmem =>
    obtain ⟨valid, hvalid⟩ : ∃ valid, (entries.take n).lookup k = some valid := by
      rw [← Option.ne_none_iff_exists', Ne, lookup_eq_none_iff]
      exact not_not.2 hmem
    conv_rhs => rw [← List.take_append_drop n entries, List.lookup_append, hvalid]
    exact hvalid
  next hmem => exact lookup_eq_none_iff.2 hmem

theorem lookup_touch (k : String) :
    (touch key valid entries).lookup k = if k = key then some valid else entries.lookup k := by
  rw [touch, List.lookup_cons]
  by_cases hk : k = key
  · simp [hk]
  · rw [if_neg hk, beq_false_of_ne hk, lookup_filter hk]

theorem map_fst_touch (h : (entries.map Prod.fst).Nodup) :
    (touch key valid entries).map Prod.fst = key :: (entries.map Prod.fst).erase key := by
  rw [touch, List.map_cons, h.erase_eq_filter, List.filter_map]
  rfl

/-! ### The contract of a memory -/

/-- What is asked of a memory that keeps the answers used last: it has an order of its keys, the one used last first,
and as many of them as there is room for. `get` and `put` both use a key. -/
structure KeepsRecent {σ : Type} (Sound : σ → Prop) (capacity : σ → Nat) (order : σ → List String)
    (value? : σ → String → Option Bool) (get : σ → String → Option Bool × σ) (put : σ → String → Bool → σ) : Prop where
  nodup : ∀ s, Sound s → (order s).Nodup
  length_le : ∀ s, Sound s → (order s).length ≤ capacity s
  isSome_iff : ∀ s k, (value? s k).isSome ↔ k ∈ order s
  sound_get : ∀ s k, Sound s → Sound (get s k).2
  get_fst : ∀ s k, (get s k).1 = value? s k
  value?_get : ∀ s k, Sound s → value? (get s k).2 = value? s
  order_get : ∀ s k, Sound s → order (get s k).2 = if k ∈ order s then k :: (order s).erase k else order s
  sound_put : ∀ s k v, Sound s → Sound (put s k v)
  value?_put : ∀ s k v k', Sound s → value? (put s k v) k' =
    if k' = k then some v else if k' ∈ order (put s k v) then value? s k' else none
  order_put : ∀ s k v, Sound s → order (put s k v) = (k :: (order s).erase k).take (capacity s)

/-- The texts of the entries. -/
def order (c : Cache) : List String := c.entries.map Prod.fst

def value? (c : Cache) (key : String) : Option Bool := c.entries.lookup key

/-- An answer that is found goes to the front. -/
def get (c : Cache) (key : String) : Option Bool × Cache :=
  match c.value? key with
  | some valid => (some valid, c.store key valid)
  | none => (none, c)

/-- There is room for an answer, and each text has one. -/
structure Sound (c : Cache) : Prop where
  pos : 0 < c.capacity
  nodup : c.order.Nodup
  length_le : c.entries.length ≤ c.capacity

theorem sound_empty (n : Nat) : (empty n).Sound := ⟨Nat.le_max_left 1 n, List.nodup_nil, Nat.zero_le _⟩

theorem entries_store (c : Cache) (key : String) (valid : Bool) :
    (c.store key valid).entries = (touch key valid c.entries).take c.capacity := rfl

theorem order_store (h : c.Sound) (key : String) (valid : Bool) :
    (c.store key valid).order = (key :: c.order.erase key).take c.capacity := by
  rw [order, entries_store, List.map_take, map_fst_touch h.nodup]
  rfl

theorem Sound.store (h : c.Sound) (key : String) (valid : Bool) : (c.store key valid).Sound where
  pos := h.pos
  nodup := by
    rw [order, entries_store, List.map_take]
    exact (List.take_sublist _ _).nodup (nodup_touch h.nodup)
  length_le := by
    rw [entries_store]
    exact List.length_take_le _ _

/-- An answer that is used again takes no more room. -/
theorem entries_store_of_mem (h : c.Sound) (hmem : key ∈ c.order) :
    (c.store key valid).entries = touch key valid c.entries := by
  refine List.take_of_length_le ?_
  have hlength : (touch key valid c.entries).length = c.entries.length := by
    have herase := List.length_erase_add_one hmem
    rw [order, List.length_map] at herase
    rw [← List.length_map (f := Prod.fst), map_fst_touch h.nodup, List.length_cons, herase]
  exact hlength ▸ h.length_le

theorem value?_eq_none : c.value? key = none ↔ key ∉ c.order := lookup_eq_none_iff

theorem isSome_value?_iff : (c.value? key).isSome ↔ key ∈ c.order := by
  rw [← not_iff_not, ← value?_eq_none, Option.not_isSome_iff_eq_none]

theorem get_cases (c : Cache) (key : String) :
    (∃ valid, c.value? key = some valid ∧ c.get key = (some valid, c.store key valid)) ∨
      c.value? key = none ∧ c.get key = (none, c) := by
  unfold get
  cases c.value? key with
  | some valid => exact .inl ⟨valid, rfl, rfl⟩
  | none => exact .inr ⟨rfl, rfl⟩

/-- The list of entries keeps the answers used last. -/
theorem keepsRecent : KeepsRecent Sound capacity order value? get store where
  nodup _ h := h.nodup
  length_le c h := by
    rw [order, List.length_map]
    exact h.length_le
  isSome_iff _ _ := isSome_value?_iff
  sound_get c key h := by
    rcases get_cases c key with ⟨valid, -, hget⟩ | ⟨-, hget⟩ <;> rw [hget]
    · exact h.store key valid
    · exact h
  get_fst c key := by
    rcases get_cases c key with ⟨valid, hvalue, hget⟩ | ⟨hvalue, hget⟩ <;> rw [hget, hvalue]
  value?_get c key h := by
    rcases get_cases c key with ⟨valid, hvalue, hget⟩ | ⟨-, hget⟩ <;> rw [hget]
    funext k
    have hmem : key ∈ c.order := isSome_value?_iff.1 (hvalue ▸ rfl)
    rw [value?, entries_store_of_mem h hmem, lookup_touch]
    split
    next hk => rw [hk, hvalue]
    next => rfl
  order_get c key h := by
    rcases get_cases c key with ⟨valid, hvalue, hget⟩ | ⟨hvalue, hget⟩ <;> rw [hget]
    · have hmem : key ∈ c.order := isSome_value?_iff.1 (hvalue ▸ rfl)
      rw [if_pos hmem, order, entries_store_of_mem h hmem, map_fst_touch h.nodup]
      rfl
    · rw [if_neg (value?_eq_none.1 hvalue)]
  sound_put c key valid h := h.store key valid
  value?_put c key valid k h := by
    have hfront : key ∈ (c.store key valid).order := by
      obtain ⟨n, hn⟩ := Nat.exists_eq_succ_of_ne_zero (Nat.pos_iff_ne_zero.1 h.pos)
      rw [order_store h, hn, List.take_succ_cons]
      exact List.mem_cons_self
    rw [value?, entries_store, lookup_take, lookup_touch]
    by_cases hk : k = key
    · rw [if_pos hk, if_pos hk]
      exact if_pos (hk ▸ hfront)
    · rw [if_neg hk, if_neg hk]
      rfl
  order_put c key valid h := order_store h key valid

/-! ### Queries -/

/-- The cached solver gets from its memory what it knows, and puts there what it has found out. -/
theorem ask_eq_get_store (answer : Query → Except SolverError Bool) (q : Query) (c : Cache) :
    ask answer q c =
      match get { c with queries := c.queries + 1 } q.render with
      | (some valid, c) => (.ok valid, { c with hits := c.hits + 1 })
      | (none, c) =>
        match answer q with
        | .ok valid => (.ok valid, c.store q.render valid)
        | .error e => (.error e, c) := by
  unfold ask get value?
  dsimp only
  cases c.entries.lookup q.render <;> rfl

/-- A query leaves the memory sound, whether it is answered or not. -/
theorem Sound.ask (h : c.Sound) (answer : Query → Except SolverError Bool) (q : Query) :
    (ask answer q c).2.Sound := by
  have hc : Sound { c with queries := c.queries + 1 } := ⟨h.pos, h.nodup, h.length_le⟩
  rw [ask_eq_get_store]
  rcases get_cases { c with queries := c.queries + 1 } q.render with ⟨valid, -, hget⟩ | ⟨-, hget⟩ <;> rw [hget]
  · have hstored := hc.store q.render valid
    exact ⟨hstored.pos, hstored.nodup, hstored.length_le⟩
  · dsimp only
    split
    · exact hc.store _ _
    · exact hc

end LayerCheck.Cache
