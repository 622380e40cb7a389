import Mathlib
import LayerCheck.Refinement.Check

/-! Names that no program can spell. A program writes plain names; temporaries, positional arguments and
spare names for bound values begin with a dollar sign and are told apart by what follows it. -/
namespace LayerCheck

/-- A name that does not begin with a dollar sign. -/
def Plain (x : String) : Prop := x.toList.head? ≠ some '$'

instance (x : String) : Decidable (Plain x) := inferInstanceAs (Decidable (_ ≠ _))

theorem toDigits_injective {m n : Nat} (h : Nat.toDigits 10 m = Nat.toDigits 10 n) : m = n := by
  rw [← Nat.ofDigitChars_ten_toDigits (n := m), h, Nat.ofDigitChars_ten_toDigits]

/-! ### Temporaries -/

namespace Liquid

theorem toList_temporaryName (n : Nat) : (temporaryName n).toList = '$' :: 't' :: Nat.toDigits 10 n := by
  change ("$t" ++ toString n).toList = _
  simp

theorem not_plain_temporaryName (n : Nat) : ¬ Plain (temporaryName n) := by
  simp [Plain, toList_temporaryName]

theorem temporaryName_injective {m n : Nat} (h : temporaryName m = temporaryName n) : m = n := by
  have h := congrArg String.toList h
  rw [toList_temporaryName, toList_temporaryName] at h
  exact toDigits_injective (by simpa using h)

end Liquid

/-! ### Arguments -/

namespace Canonical

theorem toList_nameAt (n : Nat) :
    (nameAt n).toList = '$' :: 'a' :: 'r' :: 'g' :: Nat.toDigits 10 n := by
  change ("$arg" ++ toString n).toList = _
  simp

theorem not_plain_nameAt (n : Nat) : ¬ Plain (nameAt n) := by simp [Plain, toList_nameAt]

theorem nameAt_injective {m n : Nat} (h : nameAt m = nameAt n) : m = n := by
  have h := congrArg String.toList h
  rw [toList_nameAt, toList_nameAt] at h
  exact toDigits_injective (by simpa using h)

end Canonical

/-! ### Bound values -/

theorem toList_boundName_add_two (n : Nat) :
    (boundName (n + 2)).toList = '$' :: 'v' :: Nat.toDigits 10 (n + 1) := by
  change ("$v" ++ toString (n + 1)).toList = _
  simp

theorem boundName_injective {m n : Nat} (h : boundName m = boundName n) : m = n := by
  have h := congrArg String.toList h
  match m, n with
  | 0, 0 | 1, 1 => rfl
  | 0, 1 | 1, 0 => simp [boundName] at h
  | 0, n + 2 | m + 2, 0 =>
    rw [toList_boundName_add_two] at h
    simp [boundName] at h
  | 1, n + 2 | m + 2, 1 =>
    rw [toList_boundName_add_two] at h
    simp [boundName, Nat.toDigits_ne_nil] at h
  | m + 2, n + 2 =>
    rw [toList_boundName_add_two, toList_boundName_add_two] at h
    have := toDigits_injective (by simpa using h)
    omega

theorem boundName_ne_nameAt (m n : Nat) : boundName m ≠ Canonical.nameAt n := by
  intro h
  have h := congrArg String.toList h
  rw [Canonical.toList_nameAt] at h
  match m with
  | 0 | 1 => simp [boundName] at h
  | m + 2 => simp [toList_boundName_add_two] at h

theorem boundName_ne_temporaryName (m n : Nat) : boundName m ≠ Liquid.temporaryName n := by
  intro h
  have h := congrArg String.toList h
  rw [Liquid.toList_temporaryName] at h
  match m with
  | 0 | 1 => simp [boundName] at h
  | m + 2 => simp [toList_boundName_add_two] at h

/-- There are more candidates than names taken, so the name chosen for a bound value is not taken. -/
theorem freshBoundName_not_mem (taken : List String) : freshBoundName taken ∉ taken := by
  unfold freshBoundName
  cases hfind : ((List.range (taken.length + 1)).map boundName).find? (!taken.contains ·) with
  | some x =>
    have h := List.find?_some hfind
    simpa using h
  | none =>
    have hsub : (List.range (taken.length + 1)).map boundName ⊆ taken := by
      intro x hx
      have h := List.find?_eq_none.1 hfind x hx
      simpa using h
    have hnodup : ((List.range (taken.length + 1)).map boundName).Nodup :=
      List.Nodup.map (fun _ _ => boundName_injective) List.nodup_range
    have hlen := (List.subperm_of_subset hnodup hsub).length_le
    rw [List.length_map, List.length_range] at hlen
    omega

end LayerCheck
