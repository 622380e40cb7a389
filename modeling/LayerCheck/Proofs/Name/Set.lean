import Mathlib
import LayerCheck.Name.Set

/-! Sets of names are lists in strictly increasing order, so they have no repetitions. -/
namespace LayerCheck.NameSet

theorem Sorted.nodup {s : NameSet} (hs : s.Sorted) : s.Nodup := by
  refine List.Pairwise.imp ?_ hs
  rintro x _ h rfl
  exact String.lt_irrefl x h

theorem Sorted.ext {s s' : NameSet} (hs : s.Sorted) (hs' : s'.Sorted) (h : ∀ x, x ∈ s ↔ x ∈ s') :
    s = s' := by
  have hperm : s.Perm s' := (List.perm_ext_iff_of_nodup hs.nodup hs'.nodup).2 h
  exact hperm.eq_of_pairwise (fun x y _ _ hxy hyx => absurd (String.lt_trans hxy hyx) (String.lt_irrefl x)) hs hs'

end LayerCheck.NameSet
