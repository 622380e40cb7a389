/-! Counting through all choices of one item from each of several lists, by their indices. The indices turn like the
wheels of an odometer: the first one fastest, and one that has come round starts again and turns the next. -/
namespace LayerCheck.Odometer

/-- The indices after some others, given the number of items for each; none once all wheels have come round. -/
def advance : List Nat → List Nat → Option (List Nat)
  | size :: sizes, i :: indices =>
    if i + 1 < size then some ((i + 1) :: indices) else (advance sizes indices).map (0 :: ·)
  | _, _ => none

/-- A bound on the number of turns to come. -/
def remaining : List Nat → List Nat → Nat
  | size :: sizes, i :: indices => size - 1 - i + (size - 1 + 1) * remaining sizes indices
  | _, _ => 0

theorem remaining_lt_of_advance {sizes indices next : List Nat} (h : advance sizes indices = some next) :
    remaining sizes next < remaining sizes indices := by
  induction sizes generalizing indices next with
  | nil => cases h
  | cons size sizes ih =>
    cases indices with
    | nil => cases h
    | cons i indices =>
      rw [advance] at h
      split at h
      next hi =>
        cases h
        simp only [remaining]
        omega
      next =>
        obtain ⟨rest, hrest, rfl⟩ := Option.map_eq_some_iff.1 h
        have hmul := Nat.mul_le_mul_left (size - 1 + 1) (ih hrest)
        rw [Nat.mul_succ] at hmul
        simp only [remaining]
        omega

/-- Puts choices to a test, one after the other from some indices on, until one passes it or all have been tried. A test
may have effects of its own, and may break off the search. -/
def search {m : Type → Type} [Monad m] (test : List Nat → m Bool) (sizes indices : List Nat) : m Bool := do
  if ← test indices then return true
  match _h : advance sizes indices with
  | none => return false
  | some next => search test sizes next
termination_by remaining sizes indices
decreasing_by exact remaining_lt_of_advance _h

end LayerCheck.Odometer
