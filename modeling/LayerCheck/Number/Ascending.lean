/-! Finite sets of integers, kept as lists in strictly increasing order. -/
namespace LayerCheck.Ascending

def insert (x : Int) : List Int → List Int
  | [] => [x]
  | y :: ys => if x < y then x :: y :: ys else if x = y then y :: ys else y :: insert x ys

def ofList (xs : List Int) : List Int := xs.foldl (fun s x => insert x s) []

theorem mem_insert {x y : Int} {s : List Int} : y ∈ insert x s ↔ y = x ∨ y ∈ s := by
  induction s with
  | nil => simp [insert]
  | cons z s ih =>
    rw [insert]
    split
    · simp
    · split
      · simp_all
      · simp only [List.mem_cons, ih]
        constructor <;> rintro (h | h | h) <;> simp [h]

theorem pairwise_insert {x : Int} {s : List Int} (h : s.Pairwise (· < ·)) : (insert x s).Pairwise (· < ·) := by
  induction s with
  | nil => simp [insert]
  | cons z s ih =>
    obtain ⟨hz, hs⟩ := List.pairwise_cons.1 h
    rw [insert]
    split
    next hlt =>
      refine List.pairwise_cons.2 ⟨fun y hy => ?_, h⟩
      rcases List.mem_cons.1 hy with rfl | hy
      · exact hlt
      · exact Int.lt_trans hlt (hz y hy)
    next hle =>
      split
      next => exact h
      next hne =>
        refine List.pairwise_cons.2 ⟨fun y hy => ?_, ih hs⟩
        rcases mem_insert.1 hy with rfl | hy
        · omega
        · exact hz y hy

theorem mem_ofList {x : Int} {xs : List Int} : x ∈ ofList xs ↔ x ∈ xs := by
  suffices h : ∀ s, x ∈ xs.foldl (fun s x => insert x s) s ↔ x ∈ xs ∨ x ∈ s by simp [ofList, h]
  intro s
  induction xs generalizing s with
  | nil => simp
  | cons y xs ih =>
    rw [List.foldl_cons, ih, mem_insert, List.mem_cons]
    exact or_left_comm.trans or_assoc.symm

theorem pairwise_ofList (xs : List Int) : (ofList xs).Pairwise (· < ·) := by
  suffices h : ∀ s : List Int, s.Pairwise (· < ·) → (xs.foldl (fun s x => insert x s) s).Pairwise (· < ·) from
    h [] List.Pairwise.nil
  intro s hs
  induction xs generalizing s with
  | nil => exact hs
  | cons y xs ih => exact ih _ (pairwise_insert hs)

end LayerCheck.Ascending
