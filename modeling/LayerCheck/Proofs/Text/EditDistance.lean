import Mathlib
import LayerCheck.Proofs.Text.Bytes
import LayerCheck.Text.Similar

/-! The distance of two names is the least number of edits. An edit inserts, deletes or replaces one character at any
place. The recursion of the distance, read forwards, gives a sequence of edits of that length, and since one edit
changes no distance by more than one, no sequence is shorter. The rows hold the distances of beginnings, so they follow
the recursion from the other end of both texts; since edits can be read backwards too, that end does not matter. -/
namespace LayerCheck.Text

/-! ### Edits -/

/-- One character is inserted, deleted or replaced. -/
inductive Edit : List Char → List Char → Prop
  | insert (before after : List Char) (c : Char) : Edit (before ++ after) (before ++ c :: after)
  | delete (before after : List Char) (c : Char) : Edit (before ++ c :: after) (before ++ after)
  | replace (before after : List Char) (c d : Char) : Edit (before ++ c :: after) (before ++ d :: after)

/-- A text becomes another by a number of edits, one after the other. -/
inductive Edits : Nat → List Char → List Char → Prop
  | none (xs : List Char) : Edits 0 xs xs
  | more {n : Nat} {xs ys zs : List Char} (first : Edit xs ys) (rest : Edits n ys zs) : Edits (n + 1) xs zs

variable {n : Nat} {x y c : Char} {xs ys zs : List Char}

theorem Edit.cons (h : Edit xs ys) (c : Char) : Edit (c :: xs) (c :: ys) := by
  cases h with
  | insert before after d => exact .insert (c :: before) after d
  | delete before after d => exact .delete (c :: before) after d
  | replace before after d d' => exact .replace (c :: before) after d d'

theorem Edits.cons (h : Edits n xs ys) (c : Char) : Edits n (c :: xs) (c :: ys) := by
  induction h with
  | none xs => exact .none (c :: xs)
  | more first rest ih => exact .more (first.cons c) ih

theorem Edits.min {m : Nat} (h : Edits m xs ys) (h' : Edits n xs ys) : Edits (min m n) xs ys := by
  rcases min_choice m n with hmin | hmin <;> rwa [hmin]

/-! ### The recursion of the distance -/

/-- The distance of two texts, from those of what follows their first characters. -/
def distance : List Char → List Char → Nat
  | [], ys => ys.length
  | x :: xs, [] => distance xs [] + 1
  | x :: xs, y :: ys =>
    min (min (distance xs (y :: ys) + 1) (distance (x :: xs) ys + 1)) (distance xs ys + if x = y then 0 else 1)

@[simp] theorem distance_nil (ys : List Char) : distance [] ys = ys.length := by
  rw [distance]

@[simp] theorem distance_cons_nil (x : Char) (xs : List Char) : distance (x :: xs) [] = distance xs [] + 1 := by
  rw [distance]

@[simp] theorem distance_cons_cons (x y : Char) (xs ys : List Char) :
    distance (x :: xs) (y :: ys) =
      min (min (distance xs (y :: ys) + 1) (distance (x :: xs) ys + 1)) (distance xs ys + if x = y then 0 else 1) := by
  rw [distance]

theorem distance_nil_right (xs : List Char) : distance xs [] = xs.length := by
  induction xs with
  | nil => rw [distance_nil]
  | cons x xs ih => rw [distance_cons_nil, ih, List.length_cons]

/-! ### The distance is reached -/

theorem edits_distance (xs ys : List Char) : Edits (distance xs ys) xs ys := by
  induction xs generalizing ys with
  | nil =>
    rw [distance_nil]
    induction ys with
    | nil => exact .none []
    | cons y ys ih => exact .more (.insert [] [] y) (ih.cons y)
  | cons x xs ih =>
    have hdelete : ∀ ys, Edits (distance xs ys + 1) (x :: xs) ys := fun ys => .more (.delete [] xs x) (ih ys)
    -- An insertion shortens only the second text, so that one needs an induction too.
    induction ys with
    | nil =>
      rw [distance_cons_nil]
      exact hdelete []
    | cons y ys ih' =>
      have hinsert : Edits (distance (x :: xs) ys + 1) (x :: xs) (y :: ys) :=
        .more (.insert [] (x :: xs) y) (ih'.cons y)
      have hreplace : Edits (distance xs ys + if x = y then 0 else 1) (x :: xs) (y :: ys) := by
        split
        next hxy => exact hxy ▸ (ih ys).cons x
        next => exact .more (.replace [] xs x y) ((ih ys).cons y)
      rw [distance_cons_cons]
      exact ((hdelete (y :: ys)).min hinsert).min hreplace

/-! ### No fewer edits do -/

theorem distance_cons_right_le (y : Char) (xs ys : List Char) : distance xs (y :: ys) ≤ distance xs ys + 1 := by
  cases xs with
  | nil => simp
  | cons x xs =>
    rw [distance_cons_cons]
    omega

theorem distance_cons_left_le (x : Char) (xs ys : List Char) : distance (x :: xs) ys ≤ distance xs ys + 1 := by
  cases ys with
  | nil => simp
  | cons y ys =>
    rw [distance_cons_cons]
    omega

theorem distance_le_cons_left (x : Char) (xs ys : List Char) : distance xs ys ≤ distance (x :: xs) ys + 1 := by
  induction ys with
  | nil =>
    rw [distance_cons_nil]
    omega
  | cons y ys ih =>
    have := distance_cons_right_le y xs ys
    rw [distance_cons_cons]
    omega

theorem distance_replace_le (c d : Char) (xs ys : List Char) : distance (c :: xs) ys ≤ distance (d :: xs) ys + 1 := by
  induction ys with
  | nil => simp
  | cons y ys ih =>
    rw [distance_cons_cons, distance_cons_cons]
    split <;> split <;> omega

/-- Texts of which the first is at most one edit farther from everything stay so behind one more character. -/
theorem distance_cons_le_cons (h : ∀ zs, distance xs zs ≤ distance ys zs + 1) (c : Char) (zs : List Char) :
    distance (c :: xs) zs ≤ distance (c :: ys) zs + 1 := by
  induction zs with
  | nil =>
    rw [distance_cons_nil, distance_cons_nil]
    exact Nat.succ_le_succ (h [])
  | cons z zs ih =>
    have := h (z :: zs)
    have := h zs
    rw [distance_cons_cons, distance_cons_cons]
    omega

theorem distance_append_le (h : ∀ zs, distance xs zs ≤ distance ys zs + 1) (before zs : List Char) :
    distance (before ++ xs) zs ≤ distance (before ++ ys) zs + 1 := by
  induction before generalizing zs with
  | nil => exact h zs
  | cons c before ih => exact distance_cons_le_cons ih c zs

theorem Edit.distance_le (h : Edit xs ys) (zs : List Char) : distance xs zs ≤ distance ys zs + 1 := by
  cases h with
  | insert before after c => exact distance_append_le (distance_le_cons_left c after) before zs
  | delete before after c => exact distance_append_le (distance_cons_left_le c after) before zs
  | replace before after c d => exact distance_append_le (distance_replace_le c d after) before zs

theorem distance_self (xs : List Char) : distance xs xs = 0 := by
  induction xs with
  | nil => rw [distance_nil, List.length_nil]
  | cons x xs ih => simp [ih]

theorem Edits.distance_le (h : Edits n xs ys) : distance xs ys ≤ n := by
  induction h with
  | none xs => exact (distance_self xs).le
  | more first rest ih => exact (first.distance_le _).trans (Nat.succ_le_succ ih)

theorem isLeast_distance (xs ys : List Char) : IsLeast {n | Edits n xs ys} (distance xs ys) :=
  ⟨edits_distance xs ys, fun _ h => h.distance_le⟩

/-! ### Read backwards -/

theorem Edit.reverse (h : Edit xs ys) : Edit xs.reverse ys.reverse := by
  cases h with
  | insert before after c => simpa using Edit.insert after.reverse before.reverse c
  | delete before after c => simpa using Edit.delete after.reverse before.reverse c
  | replace before after c d => simpa using Edit.replace after.reverse before.reverse c d

theorem Edits.reverse (h : Edits n xs ys) : Edits n xs.reverse ys.reverse := by
  induction h with
  | none xs => exact .none xs.reverse
  | more first rest ih => exact .more first.reverse ih

theorem distance_reverse (xs ys : List Char) : distance xs.reverse ys.reverse = distance xs ys := by
  have reverse_le (xs ys : List Char) : distance xs.reverse ys.reverse ≤ distance xs ys :=
    (edits_distance xs ys).reverse.distance_le
  refine (reverse_le xs ys).antisymm ?_
  simpa using reverse_le xs.reverse ys.reverse

/-! ### The rows -/

/-- The distances from one text to others, the first of them `q` and each next one longer by a character of `ys`.
Texts are written backwards. -/
def distances (p q : List Char) : List Char → List Nat
  | [] => [distance p q]
  | y :: ys => distance p q :: distances p (y :: q) ys

theorem distances_eq_cons (p q ys : List Char) : distances p q ys = distance p q :: (distances p q ys).tail := by
  cases ys <;> rfl

theorem fillRow_distances (x : Char) (p q ys : List Char) :
    fillRow x (distance (x :: p) q) ys (distances p q ys) = (distances (x :: p) q ys).tail := by
  induction ys generalizing q with
  | nil => rfl
  | cons y ys ih =>
    rw [distances, distances_eq_cons, fillRow, ← distance_cons_cons, ← distances_eq_cons, ih, distances, List.tail_cons]
    exact (distances_eq_cons _ _ _).symm

theorem nextRow_distances (x : Char) (p ys : List Char) :
    nextRow (p.length + 1) x ys (distances p [] ys) = distances (x :: p) [] ys := by
  have hfirst : p.length + 1 = distance (x :: p) [] := (distance_nil_right (x :: p)).symm
  rw [nextRow, hfirst, fillRow_distances, ← distances_eq_cons]

theorem lastRow_distances (xs p ys : List Char) :
    lastRow ys p.length xs (distances p [] ys) = distances (xs.reverse ++ p) [] ys := by
  induction xs generalizing p with
  | nil => rfl
  | cons x xs ih =>
    rw [lastRow, nextRow_distances, List.reverse_cons, List.append_assoc]
    exact ih (x :: p)

theorem range'_eq_distances (q ys : List Char) : List.range' q.length (ys.length + 1) = distances [] q ys := by
  induction ys generalizing q with
  | nil => simp [distances]
  | cons y ys ih =>
    rw [List.length_cons, List.range'_succ, distances, distance_nil]
    exact congrArg _ (ih (y :: q))

theorem getLastD_distances (p q ys : List Char) (d : Nat) :
    (distances p q ys).getLastD d = distance p (ys.reverse ++ q) := by
  induction ys generalizing q d with
  | nil => rfl
  | cons y ys ih => rw [distances, List.getLastD_cons, ih, List.reverse_cons, List.append_assoc, List.singleton_append]

theorem editDistance_eq (a b : String) : editDistance a b = distance a.toList b.toList := by
  simp only [editDistance, List.isEmpty_iff]
  split
  next ha => rw [ha, distance_nil]
  next =>
    split
    next hb => rw [hb, distance_nil_right]
    next =>
      have hfirst : List.range (b.toList.length + 1) = distances [] [] b.toList := by
        rw [List.range_eq_range']
        exact range'_eq_distances [] b.toList
      have hlast := lastRow_distances a.toList [] b.toList
      rw [List.length_nil] at hlast
      rw [hfirst, hlast, getLastD_distances, List.append_nil, List.append_nil, distance_reverse]

/-! ### Similar names -/

theorem bytes_le {s t : String} : bytes s ≤ bytes t ↔ s ≤ t := not_congr bytes_lt

theorem nearer_iff {a b : Nat × String} : nearer a b = true ↔ a.1 < b.1 ∨ a.1 = b.1 ∧ a.2 ≤ b.2 := by
  simp [nearer]

theorem nearer_trans (a b c : Nat × String) (hab : nearer a b = true) (hbc : nearer b c = true) :
    nearer a c = true := by
  rw [nearer_iff] at *
  rcases hab with hab | ⟨hab, hname⟩ <;> rcases hbc with hbc | ⟨hbc, hname'⟩
  · exact .inl (hab.trans hbc)
  · exact .inl (hbc ▸ hab)
  · exact .inl (hab ▸ hbc)
  · exact .inr ⟨hab.trans hbc, String.le_trans hname hname'⟩

theorem nearer_total (a b : Nat × String) : (nearer a b || nearer b a) = true := by
  rw [Bool.or_eq_true, nearer_iff, nearer_iff]
  rcases lt_trichotomy a.1 b.1 with h | h | h
  · exact .inl (.inl h)
  · rcases String.le_total a.2 b.2 with hname | hname
    · exact .inl (.inr ⟨h, hname⟩)
    · exact .inr (.inr ⟨h.symm, hname⟩)
  · exact .inr (.inl h)

section Similar

variable (target : String) (candidates : List String) (limit : Nat)

/-- The candidates within the limit, each behind its distance. -/
def scored : List (Nat × String) :=
  (candidates.map fun c => (editDistance target c, c)).filter fun p => 0 < p.1 && p.1 ≤ limit

theorem similarNames_eq :
    similarNames target candidates limit = ((scored target candidates limit).mergeSort nearer).map (·.2) :=
  rfl

theorem map_scored : (scored target candidates limit).map (·.2) =
    candidates.filter fun c => 1 ≤ editDistance target c ∧ editDistance target c ≤ limit := by
  rw [scored, List.filter_map, List.map_map, Function.comp_def, List.map_id']
  refine List.filter_congr fun c _ => ?_
  rw [Function.comp_apply, Bool.decide_and]
  rfl

theorem fst_of_mem_scored {p : Nat × String} (h : p ∈ scored target candidates limit) :
    p.1 = editDistance target p.2 := by
  obtain ⟨c, -, rfl⟩ := List.mem_map.1 (List.mem_filter.1 h).1
  rfl

theorem similarNames_perm : (similarNames target candidates limit).Perm
    (candidates.filter fun c => 1 ≤ editDistance target c ∧ editDistance target c ≤ limit) := by
  rw [similarNames_eq, ← map_scored]
  exact (List.mergeSort_perm _ _).map _

theorem similarNames_sorted : (similarNames target candidates limit).Pairwise fun c c' =>
    editDistance target c < editDistance target c' ∨
      editDistance target c = editDistance target c' ∧ bytes c ≤ bytes c' := by
  rw [similarNames_eq, List.pairwise_map]
  refine (List.pairwise_mergeSort nearer_trans nearer_total _).imp_of_mem fun hp hq h => ?_
  rw [List.mem_mergeSort] at hp hq
  rwa [nearer_iff, fst_of_mem_scored _ _ _ hp, fst_of_mem_scored _ _ _ hq, ← bytes_le] at h

end Similar

/-- Hints rest on the true edit distance. The distance of two names is the least number of edits that make one of the
other; the names similar to a target are the candidates, as often as they occur, whose distance from it is at least
one and at most the limit, the nearer before the farther and names at one distance in the order of their bytes. -/
theorem similarNames_by_least_edits :
    (∀ a b : String, IsLeast {n | Edits n a.toList b.toList} (editDistance a b)) ∧
      ∀ (target : String) (candidates : List String) (limit : Nat),
        (similarNames target candidates limit).Perm
            (candidates.filter fun c => 1 ≤ editDistance target c ∧ editDistance target c ≤ limit) ∧
          (similarNames target candidates limit).Pairwise fun c c' =>
            editDistance target c < editDistance target c' ∨
              editDistance target c = editDistance target c' ∧ bytes c ≤ bytes c' := by
  refine ⟨fun a b => editDistance_eq a b ▸ isLeast_distance a.toList b.toList, fun target candidates limit => ?_⟩
  exact ⟨similarNames_perm target candidates limit, similarNames_sorted target candidates limit⟩

end LayerCheck.Text
