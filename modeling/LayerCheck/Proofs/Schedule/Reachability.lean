import Mathlib
import LayerCheck.Proofs.Name.Set
import LayerCheck.Schedule.Graph

/-! What the walks over a graph of layers find. The walk from some roots meets exactly the layers that come
after one of them, and the layers of the listed cycles are exactly those that come before themselves. Off the
cycles the order of the layers is well founded. -/
namespace LayerCheck.LayerGraph

variable {g : LayerGraph}

/-- The first layer comes before the second, directly or through others. -/
def Before (g : LayerGraph) : String → String → Prop := Relation.TransGen fun a b => (a, b) ∈ g.edges

def OnCycle (g : LayerGraph) (n : String) : Prop := g.Before n n

theorem mem_layers {n : String} : n ∈ g.layers ↔ n ∈ g.nodes := NameSet.mem_ofList

theorem mem_dependencies {n d : String} : d ∈ g.dependencies n ↔ (d, n) ∈ g.edges := by
  simp [dependencies, NameSet.mem_ofList]

theorem mem_dependents {n d : String} : d ∈ g.dependents n ↔ (n, d) ∈ g.edges := by
  simp [dependents, NameSet.mem_ofList]

theorem nodup_dependencies (g : LayerGraph) (n : String) : (g.dependencies n).Nodup :=
  (NameSet.sorted_ofList _).nodup

theorem nodup_dependents (g : LayerGraph) (n : String) : (g.dependents n).Nodup := (NameSet.sorted_ofList _).nodup

theorem mem_dependents_iff {n d : String} : d ∈ g.dependents n ↔ n ∈ g.dependencies d :=
  mem_dependents.trans mem_dependencies.symm

theorem Before.mem_left {a b : String} (h : g.Before a b) : a ∈ g.nodes := by
  obtain ⟨c, hac, -⟩ := Relation.TransGen.head'_iff.1 h
  exact (g.closed _ hac).1

theorem Before.mem_right {a b : String} (h : g.Before a b) : b ∈ g.nodes := by
  obtain ⟨c, -, hcb⟩ := Relation.TransGen.tail'_iff.1 h
  exact (g.closed _ hcb).2

theorem Before.trans {a b c : String} (hab : g.Before a b) (hbc : g.Before b c) : g.Before a c :=
  Relation.TransGen.trans hab hbc

theorem OnCycle.exists_dependency {n : String} (h : g.OnCycle n) : ∃ d ∈ g.dependencies n, g.OnCycle d := by
  obtain ⟨d, hnd, hdn⟩ := Relation.TransGen.tail'_iff.1 h
  exact ⟨d, mem_dependencies.2 hdn, Relation.TransGen.head' hdn hnd⟩

/-! ### The walk -/

theorem exists_pending_of_mem_reachFrom {next : String → List String} {unseen pending : List String} {m : String}
    (h : m ∈ reachFrom next unseen pending) :
    ∃ r ∈ pending, Relation.ReflTransGen (fun a b => b ∈ next a) r m := by
  fun_induction reachFrom next unseen pending with
  | case1 => simp at h
  | case2 unseen x pending hx ih =>
    rcases List.mem_cons.1 h with rfl | h
    · exact ⟨m, List.mem_cons_self, .refl⟩
    · obtain ⟨r, hr, hrm⟩ := ih h
      rcases List.mem_append.1 hr with hr | hr
      · exact ⟨x, List.mem_cons_self, .head hr hrm⟩
      · exact ⟨r, List.mem_cons_of_mem _ hr, hrm⟩
  | case3 unseen x pending hx ih =>
    obtain ⟨r, hr, hrm⟩ := ih h
    exact ⟨r, List.mem_cons_of_mem _ hr, hrm⟩

/-- The walk meets the names it begins at, and with a name those next to it. -/
theorem reachFrom_closed (next : String → List String) (unseen pending : List String) :
    (∀ x ∈ pending, x ∈ unseen → x ∈ reachFrom next unseen pending) ∧
      ∀ x ∈ reachFrom next unseen pending, ∀ y ∈ next x, y ∈ unseen → y ∈ reachFrom next unseen pending := by
  fun_induction reachFrom next unseen pending with
  | case1 => simp
  | case2 unseen x pending hx ih =>
    obtain ⟨start, onward⟩ := ih
    refine ⟨fun y hy hu => ?_, fun y hy z hz hu => ?_⟩
    · rcases eq_or_ne y x with rfl | hyx
      · exact List.mem_cons_self
      · have hy : y ∈ pending := List.mem_of_ne_of_mem hyx hy
        exact List.mem_cons_of_mem _ (start y (List.mem_append_right _ hy) ((List.mem_erase_of_ne hyx).2 hu))
    · rcases eq_or_ne z x with rfl | hzx
      · exact List.mem_cons_self
      · have hu : z ∈ unseen.erase x := (List.mem_erase_of_ne hzx).2 hu
        refine List.mem_cons_of_mem _ ?_
        rcases List.mem_cons.1 hy with rfl | hy
        · exact start z (List.mem_append_left _ hz) hu
        · exact onward y hy z hz hu
  | case3 unseen x pending hx ih =>
    refine ⟨fun y hy hu => ih.1 y ?_ hu, ih.2⟩
    have hyx : y ≠ x := fun h => hx (h ▸ hu)
    exact List.mem_of_ne_of_mem hyx hy

theorem mem_after {roots : List String} {m : String} : m ∈ g.after roots ↔ ∃ r ∈ roots, g.Before r m := by
  constructor
  · intro h
    obtain ⟨x, hx, hxm⟩ := exists_pending_of_mem_reachFrom h
    obtain ⟨r, hr, hrx⟩ := List.mem_flatMap.1 hx
    refine ⟨r, hr, Relation.TransGen.head' (mem_dependents.1 hrx) ?_⟩
    exact Relation.ReflTransGen.mono (fun _ _ => mem_dependents.1) _ _ hxm
  · rintro ⟨r, hr, h⟩
    obtain ⟨start, onward⟩ := reachFrom_closed g.dependents g.nodes (roots.flatMap g.dependents)
    induction h with
    | single he => exact start _ (List.mem_flatMap.2 ⟨r, hr, mem_dependents.2 he⟩) (g.closed _ he).2
    | tail _ he ih => exact onward _ ih _ (mem_dependents.2 he) (g.closed _ he).2

theorem mem_transitiveDependents {roots : List String} {m : String} :
    m ∈ g.transitiveDependents roots ↔ (∃ r ∈ roots, g.Before r m) ∧ m ∉ roots := by
  simp [transitiveDependents, NameSet.diff, NameSet.mem_ofList, mem_after]

/-! ### Cycles -/

theorem mem_circle {n m : String} : m ∈ g.circle n ↔ g.Before n m ∧ g.Before m n := by
  simp [circle, NameSet.mem_ofList, mem_after]

/-- Layers on one circle have the same circle. -/
theorem circle_eq {n m : String} (h : m ∈ g.circle n) : g.circle m = g.circle n := by
  obtain ⟨hnm, hmn⟩ := mem_circle.1 h
  refine List.Pairwise.eq_of_mem_iff (NameSet.sorted_ofList _) (NameSet.sorted_ofList _) fun k => ?_
  change k ∈ g.circle m ↔ k ∈ g.circle n
  rw [mem_circle, mem_circle]
  constructor
  · rintro ⟨hmk, hkm⟩
    exact ⟨hnm.trans hmk, hkm.trans hmn⟩
  · rintro ⟨hnk, hkn⟩
    exact ⟨hmn.trans hnk, hkn.trans hnm⟩

/-- The cycle through a layer is listed at its least layer. -/
theorem mem_cycles {c : List String} : c ∈ g.cycles ↔ ∃ n, g.OnCycle n ∧ g.circle n = c := by
  simp only [cycles, List.mem_filterMap]
  constructor
  · rintro ⟨n, -, hn⟩
    split at hn
    next hhead => exact ⟨n, (mem_circle.1 (List.mem_of_head? hhead)).1, Option.some.inj hn⟩
    next => cases hn
  · rintro ⟨n, hn, rfl⟩
    obtain ⟨k, ks, hks⟩ := List.exists_cons_of_ne_nil (List.ne_nil_of_mem (mem_circle.2 ⟨hn, hn⟩))
    have hk : k ∈ g.circle n := hks ▸ List.mem_cons_self
    refine ⟨k, mem_layers.2 (mem_circle.1 hk).1.mem_right, ?_⟩
    rw [circle_eq hk, hks]
    exact if_pos rfl

theorem mem_flatten_cycles {n : String} : n ∈ g.cycles.flatten ↔ g.OnCycle n := by
  simp only [List.mem_flatten, mem_cycles]
  constructor
  · rintro ⟨_, ⟨k, -, rfl⟩, hn⟩
    obtain ⟨hkn, hnk⟩ := mem_circle.1 hn
    exact hnk.trans hkn
  · intro h
    exact ⟨g.circle n, ⟨n, h, rfl⟩, mem_circle.2 ⟨h, h⟩⟩

theorem cycles_eq_nil : g.cycles = [] ↔ ∀ n, ¬ g.OnCycle n := by
  simp [List.eq_nil_iff_forall_not_mem, mem_cycles]

/-- A property of the layers off the cycles may be shown of each from all the layers before it. -/
@[elab_as_elim]
theorem before_induction {motive : String → Prop} {n : String} (hn : ¬ g.OnCycle n)
    (step : ∀ n, ¬ g.OnCycle n → (∀ m, g.Before m n → ¬ g.OnCycle m → motive m) → motive n) : motive n := by
  let free := {n // n ∈ g.nodes ∧ ¬ g.OnCycle n}
  let r : free → free → Prop := fun a b => g.Before a b
  have : Finite free := (List.finite_toSet g.nodes).subset fun n hn => hn.1
  have : IsTrans free r := ⟨fun _ _ _ hab hbc => Before.trans hab hbc⟩
  have : Std.Irrefl r := ⟨fun a => a.2.2⟩
  have wf : WellFounded r := Finite.wellFounded_of_trans_of_irrefl r
  have main : ∀ a : free, motive a := fun a => wf.induction a fun b ih =>
    step b b.2.2 fun m hm hmc => ih ⟨m, hm.mem_left, hmc⟩ hm
  exact step n hn fun m hm hmc => main ⟨m, hm.mem_left, hmc⟩

end LayerCheck.LayerGraph
