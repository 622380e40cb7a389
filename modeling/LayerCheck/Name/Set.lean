/-! Finite sets of names, kept as lists in strictly increasing order, so that equal sets are equal
lists and every listing of one is sorted. Names are compared by code points. -/
namespace LayerCheck

abbrev NameSet := List String

namespace NameSet

def insert (x : String) : NameSet → NameSet
  | [] => [x]
  | y :: ys => if x < y then x :: y :: ys else if x = y then y :: ys else y :: insert x ys

def union (xs : List String) (s : NameSet) : NameSet := xs.foldl (fun s x => insert x s) s

def ofList (xs : List String) : NameSet := union xs []

def erase (x : String) (s : NameSet) : NameSet := s.filter (· != x)

def diff (s t : NameSet) : NameSet := s.filter (!t.contains ·)

theorem mem_insert {x y : String} {s : NameSet} : y ∈ insert x s ↔ y = x ∨ y ∈ s := by
  induction s with
  | nil => simp [insert]
  | cons z s ih =>
    rw [insert]
    split
    · simp
    · split
      · simp_all
      · simp only [List.mem_cons, ih]
        constructor <;> rintro (h | h | h) <;> simp [h]

theorem mem_union {y : String} {xs : List String} {s : NameSet} : y ∈ union xs s ↔ y ∈ xs ∨ y ∈ s := by
  induction xs generalizing s with
  | nil => simp [union]
  | cons x xs ih =>
    have step : union (x :: xs) s = union xs (insert x s) := rfl
    rw [step, ih, mem_insert, List.mem_cons]
    constructor
    · rintro (h | h | h) <;> simp [h]
    · rintro ((h | h) | h) <;> simp [h]

theorem mem_ofList {y : String} {xs : List String} : y ∈ ofList xs ↔ y ∈ xs := by
  simp [ofList, mem_union]

/-! ### Sets in order -/

def Sorted (s : NameSet) : Prop := s.Pairwise (· < ·)

theorem Sorted.insert {s : NameSet} (hs : s.Sorted) (x : String) : Sorted (insert x s) := by
  induction s with
  | nil => exact List.pairwise_singleton _ _
  | cons y s ih =>
    obtain ⟨hy, hs'⟩ := List.pairwise_cons.1 hs
    rw [NameSet.insert]
    split
    next hlt =>
      refine List.pairwise_cons.2 ⟨fun z hz => ?_, hs⟩
      rcases List.mem_cons.1 hz with rfl | hz
      · exact hlt
      · exact String.lt_trans hlt (hy z hz)
    next hlt =>
      split
      next => exact hs
      next hne =>
        refine List.pairwise_cons.2 ⟨fun z hz => ?_, ih hs'⟩
        rcases mem_insert.1 hz with rfl | hz
        · exact Std.lt_of_le_of_ne (Std.not_lt.1 hlt) (Ne.symm hne)
        · exact hy z hz

theorem Sorted.union {s : NameSet} (hs : s.Sorted) (xs : List String) : Sorted (union xs s) := by
  induction xs generalizing s with
  | nil => exact hs
  | cons x xs ih => exact ih (hs.insert x)

theorem sorted_ofList (xs : List String) : Sorted (ofList xs) := Sorted.union List.Pairwise.nil xs

end NameSet

end LayerCheck
