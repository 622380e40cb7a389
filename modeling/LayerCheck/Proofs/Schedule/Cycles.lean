import Mathlib
import LayerCheck.Proofs.Schedule.Construction
import LayerCheck.Proofs.Schedule.Reachability

/-! What a graph of layers answers, in terms of what was added to it. The listed cycles are the classes of mutually
reachable layers with a layer that leads to itself, the layers that come after some roots are those that a path leads
to, and neither depends on the order of the additions. -/
namespace LayerCheck.LayerGraph

variable {as as' : List Addition} {a b n m : String} {c : List String}

/-! ### Paths -/

/-- A path of one or more of the added edges leads from the first layer to the second. -/
def Leads (as : List Addition) : String → String → Prop := Relation.TransGen fun a b => .edge a b ∈ as

/-- Paths, maybe empty ones, lead from each of two layers to the other. -/
def Mutual (as : List Addition) (a b : String) : Prop :=
  Relation.ReflTransGen (fun a b => .edge a b ∈ as) a b ∧ Relation.ReflTransGen (fun a b => .edge a b ∈ as) b a

theorem Mutual.symm (h : Mutual as a b) : Mutual as b a := ⟨h.2, h.1⟩

theorem Mutual.trans (h : Mutual as a b) (h' : Mutual as b n) : Mutual as a n := ⟨h.1.trans h'.1, h'.2.trans h.2⟩

theorem mutual_iff : Mutual as a b ↔ a = b ∨ Leads as a b ∧ Leads as b a := by
  rw [Mutual, Relation.reflTransGen_iff_eq_or_transGen, Relation.reflTransGen_iff_eq_or_transGen, Leads]
  constructor
  · rintro ⟨rfl | hab, heq | hba⟩
    · exact .inl rfl
    · exact .inl rfl
    · exact .inl heq
    · exact .inr ⟨hab, hba⟩
  · rintro (rfl | ⟨hab, hba⟩)
    · exact ⟨.inl rfl, .inl rfl⟩
    · exact ⟨.inr hab, .inr hba⟩

theorem mem_nodes_empty_addAll : n ∈ (empty.addAll as).nodes ↔ n ∈ as.flatMap Addition.names := by
  rw [mem_nodes_addAll]
  exact or_iff_right List.not_mem_nil

theorem mem_edges_empty_addAll : (a, b) ∈ (empty.addAll as).edges ↔ .edge a b ∈ as := by
  rw [mem_edges_addAll]
  exact or_iff_right List.not_mem_nil

theorem before_addAll : (empty.addAll as).Before = Leads as := by
  unfold Before Leads
  simp only [mem_edges_empty_addAll]

theorem Leads.mem_names (h : Leads as a b) : a ∈ as.flatMap Addition.names := by
  rw [← before_addAll] at h
  exact mem_nodes_empty_addAll.1 (Before.mem_left h)

theorem mem_circle_addAll : m ∈ (empty.addAll as).circle n ↔ Leads as n m ∧ Leads as m n := by
  rw [mem_circle, before_addAll]

theorem Leads.mem_circle_iff (hn : Leads as n n) : m ∈ (empty.addAll as).circle n ↔ Mutual as n m := by
  rw [mem_circle_addAll, mutual_iff, or_iff_right_of_imp]
  rintro rfl
  exact ⟨hn, hn⟩

/-! ### Classes -/

/-- A list of all the layers that are mutually reachable with one of them. -/
def IsClass (as : List Addition) (c : List String) : Prop :=
  ∃ n ∈ as.flatMap Addition.names, ∀ m, m ∈ c ↔ Mutual as n m

theorem IsClass.mem_iff (h : IsClass as c) (hn : n ∈ c) : m ∈ c ↔ Mutual as n m := by
  obtain ⟨k, -, hc⟩ := h
  have hkn : Mutual as k n := (hc n).1 hn
  exact (hc m).trans ⟨hkn.symm.trans, hkn.trans⟩

/-- The cycles are the classes with a layer that leads to itself. -/
theorem mem_cycles_addAll : c ∈ (empty.addAll as).cycles ↔
    NameSet.Sorted c ∧ IsClass as c ∧ ∃ n ∈ c, Leads as n n := by
  rw [mem_cycles]
  simp only [OnCycle, before_addAll]
  constructor
  · rintro ⟨n, hn, rfl⟩
    exact ⟨NameSet.sorted_ofList _, ⟨n, hn.mem_names, fun m => hn.mem_circle_iff⟩, n, mem_circle_addAll.2 ⟨hn, hn⟩, hn⟩
  · rintro ⟨hsorted, hclass, n, hmem, hn⟩
    refine ⟨n, hn, NameSet.Sorted.ext (NameSet.sorted_ofList _) hsorted fun m => ?_⟩
    rw [hn.mem_circle_iff, hclass.mem_iff hmem]

/-- Each cycle is listed once, and the list is in order. -/
theorem cycles_sorted (g : LayerGraph) : g.cycles.Pairwise (· < ·) := by
  refine List.Pairwise.filterMap _ (fun n m hlt cn hcn cm hcm => ?_) (NameSet.sorted_ofList g.nodes)
  dsimp only at hcn hcm
  split at hcn
  next hn =>
    split at hcm
    next hm =>
      obtain ⟨ns, hns⟩ := List.head?_eq_some_iff.1 hn
      obtain ⟨ms, hms⟩ := List.head?_eq_some_iff.1 hm
      rw [← Option.some.inj hcn, ← Option.some.inj hcm, hns, hms]
      exact List.Lex.rel hlt
    next => cases hcm
  next => cases hcn

/-! ### Components -/

/-- A listing of all classes, each once, in whatever order. -/
structure Components (as : List Addition) (components : List (List String)) : Prop where
  classes : ∀ c ∈ components, IsClass as c ∧ c.Nodup
  covering : ∀ n ∈ as.flatMap Addition.names, ∃ c ∈ components, n ∈ c
  disjoint : components.Pairwise List.Disjoint

/-- A component counts as a cycle unless it is a single layer without an edge to itself. -/
def circular (as : List Addition) : List String → Bool
  | [n] => as.contains (.edge n n)
  | _ => true

/-- The circular components, each with its layers in order, in order. -/
def circularInOrder (as : List Addition) (components : List (List String)) : List (List String) :=
  ((components.filter (circular as)).map (·.mergeSort)).mergeSort

theorem IsClass.circular_iff (h : IsClass as c) (hc : c.Nodup) : circular as c = true ↔ ∃ n ∈ c, Leads as n n := by
  rcases c with _ | ⟨n, _ | ⟨m, rest⟩⟩
  · obtain ⟨n, -, hn⟩ := h
    exact absurd ((hn n).2 ⟨.refl, .refl⟩) List.not_mem_nil
  · rw [circular, List.contains_iff_mem]
    refine ⟨fun hedge => ⟨n, List.mem_singleton_self n, .single hedge⟩, ?_⟩
    rintro ⟨m, hm, hcycle⟩
    obtain rfl := List.mem_singleton.1 hm
    -- the next layer on the way from `m` to itself leads back to `m`, so it is `m`
    obtain ⟨k, hmk, hkm⟩ := Relation.TransGen.head'_iff.1 hcycle
    have hk : k ∈ [m] := (h.mem_iff hm).2 ⟨.single hmk, hkm⟩
    exact List.mem_singleton.1 hk ▸ hmk
  · have hne : n ≠ m := fun heq => (List.nodup_cons.1 hc).1 (heq ▸ List.mem_cons_self)
    have hnm : Mutual as n m := (h.mem_iff List.mem_cons_self).1 (List.mem_cons_of_mem _ List.mem_cons_self)
    obtain ⟨hleads, hback⟩ := (mutual_iff.1 hnm).resolve_left hne
    exact iff_of_true rfl ⟨n, List.mem_cons_self, hleads.trans hback⟩

/-- Sorting gives the one arrangement in strictly increasing order. -/
theorem mergeSort_eq_of_perm {α : Type} [LinearOrder α] {l l' : List α} (h : l.Perm l') (hs : l'.Pairwise (· < ·)) :
    l.mergeSort = l' :=
  ((List.mergeSort_perm l _).trans h).eq_of_pairwise' (List.pairwise_mergeSort' (· ≤ ·) l) (hs.imp le_of_lt)

theorem mergeSort_eq_ofList (hc : c.Nodup) : c.mergeSort = NameSet.ofList c := by
  have hsorted : NameSet.Sorted (NameSet.ofList c) := NameSet.sorted_ofList c
  refine mergeSort_eq_of_perm ((List.perm_ext_iff_of_nodup hc hsorted.nodup).2 fun n => ?_) hsorted
  exact NameSet.mem_ofList.symm

namespace Components

variable {components : List (List String)}

theorem mem_circular (h : Components as components) :
    c ∈ (components.filter (circular as)).map (·.mergeSort) ↔ c ∈ (empty.addAll as).cycles := by
  rw [mem_cycles_addAll]
  simp only [List.mem_map, List.mem_filter]
  constructor
  · rintro ⟨d, ⟨hd, hcircular⟩, rfl⟩
    obtain ⟨hclass, hnodup⟩ := h.classes d hd
    obtain ⟨n, hn, hcycle⟩ := (hclass.circular_iff hnodup).1 hcircular
    rw [mergeSort_eq_ofList hnodup]
    refine ⟨NameSet.sorted_ofList d, ?_, n, NameSet.mem_ofList.2 hn, hcycle⟩
    simpa only [IsClass, NameSet.mem_ofList] using hclass
  · rintro ⟨hsorted, hclass, n, hn, hcycle⟩
    obtain ⟨d, hd, hnd⟩ := h.covering n hcycle.mem_names
    obtain ⟨hdclass, hnodup⟩ := h.classes d hd
    refine ⟨d, ⟨hd, (hdclass.circular_iff hnodup).2 ⟨n, hnd, hcycle⟩⟩, ?_⟩
    rw [mergeSort_eq_ofList hnodup]
    refine NameSet.Sorted.ext (NameSet.sorted_ofList d) hsorted fun m => ?_
    rw [NameSet.mem_ofList, hdclass.mem_iff hnd, hclass.mem_iff hn]

/-- Sorted, the components are still apart: they have layers, and no two share one. -/
theorem nodup_circular (h : Components as components) :
    ((components.filter (circular as)).map (·.mergeSort)).Nodup := by
  refine List.Pairwise.map _ (fun c d hcd => hcd) ?_
  refine List.Pairwise.imp_of_mem (fun {c d} hc _ hdisjoint heq => ?_) (h.disjoint.filter _)
  obtain ⟨n, -, hn⟩ := (h.classes c (List.mem_of_mem_filter hc)).1
  have hmem : n ∈ c := (hn n).2 ⟨.refl, .refl⟩
  exact hdisjoint hmem (List.mem_mergeSort.1 (heq ▸ List.mem_mergeSort.2 hmem))

/-- Whatever finds the components, the circular ones in order are the cycles. -/
theorem circularInOrder_eq (h : Components as components) :
    circularInOrder as components = (empty.addAll as).cycles := by
  have hsorted := cycles_sorted (empty.addAll as)
  have hperm := (List.perm_ext_iff_of_nodup h.nodup_circular hsorted.nodup).2 fun c => h.mem_circular
  exact mergeSort_eq_of_perm hperm hsorted

end Components

/-! ### The order of additions -/

/-- Additions that name the same layers and the same edges, in whatever order and however often. -/
def SameParts (as as' : List Addition) : Prop :=
  (∀ n, n ∈ as.flatMap Addition.names ↔ n ∈ as'.flatMap Addition.names) ∧ ∀ a b, .edge a b ∈ as ↔ .edge a b ∈ as'

/-- Graphs that cannot be told apart by what they answer. -/
structure SameAnswers (g g' : LayerGraph) : Prop where
  layers : g.layers = g'.layers
  dependencies : ∀ n, g.dependencies n = g'.dependencies n
  dependents : ∀ n, g.dependents n = g'.dependents n
  cycles : g.cycles = g'.cycles
  transitiveDependents : ∀ roots roots', (∀ n, n ∈ roots ↔ n ∈ roots') →
    g.transitiveDependents roots = g'.transitiveDependents roots'

theorem sorted_transitiveDependents (g : LayerGraph) (roots : List String) :
    NameSet.Sorted (g.transitiveDependents roots) := (NameSet.sorted_ofList (g.after roots)).filter _

theorem SameParts.sameAnswers (h : SameParts as as') : SameAnswers (empty.addAll as) (empty.addAll as') := by
  have hleads : Leads as = Leads as' := by
    unfold Leads
    simp only [h.2]
  have hcircle (n : String) : (empty.addAll as).circle n = (empty.addAll as').circle n := by
    refine NameSet.Sorted.ext (NameSet.sorted_ofList _) (NameSet.sorted_ofList _) fun m => ?_
    rw [mem_circle_addAll, mem_circle_addAll, hleads]
  constructor
  · refine NameSet.Sorted.ext (NameSet.sorted_ofList _) (NameSet.sorted_ofList _) fun n => ?_
    rw [mem_layers, mem_layers, mem_nodes_empty_addAll, mem_nodes_empty_addAll, h.1]
  · intro n
    refine NameSet.Sorted.ext (NameSet.sorted_ofList _) (NameSet.sorted_ofList _) fun m => ?_
    rw [mem_dependencies, mem_dependencies, mem_edges_empty_addAll, mem_edges_empty_addAll, h.2]
  · intro n
    refine NameSet.Sorted.ext (NameSet.sorted_ofList _) (NameSet.sorted_ofList _) fun m => ?_
    rw [mem_dependents, mem_dependents, mem_edges_empty_addAll, mem_edges_empty_addAll, h.2]
  · refine (cycles_sorted _).eq_of_mem_iff (cycles_sorted _) fun c => ?_
    simp only [mem_cycles, OnCycle, before_addAll, hleads, hcircle]
  · intro roots roots' hroots
    refine (sorted_transitiveDependents _ _).ext (sorted_transitiveDependents _ _) fun m => ?_
    simp only [mem_transitiveDependents, before_addAll, hleads, hroots]

/-- The cycles of a graph and what comes after some layers are exactly as the added layers and edges say, whatever the
order in which they were added. -/
theorem answers_addAll (as : List Addition) :
    ((empty.addAll as).cycles.Pairwise (· < ·) ∧
      ∀ c, c ∈ (empty.addAll as).cycles ↔ NameSet.Sorted c ∧ IsClass as c ∧ ∃ n ∈ c, Leads as n n) ∧
    (∀ components, Components as components → circularInOrder as components = (empty.addAll as).cycles) ∧
    (∀ roots, NameSet.Sorted ((empty.addAll as).transitiveDependents roots) ∧
      ∀ m, m ∈ (empty.addAll as).transitiveDependents roots ↔ (∃ r ∈ roots, Leads as r m) ∧ m ∉ roots) ∧
    (∀ a b, (b ∈ (empty.addAll as).dependents a ↔ .edge a b ∈ as) ∧
      (a ∈ (empty.addAll as).dependencies b ↔ .edge a b ∈ as)) ∧
    ∀ as', SameParts as as' → SameAnswers (empty.addAll as) (empty.addAll as') := by
  refine ⟨⟨cycles_sorted _, fun c => mem_cycles_addAll⟩, fun components h => h.circularInOrder_eq,
    fun roots => ⟨sorted_transitiveDependents _ roots, fun m => ?_⟩, fun a b => ⟨?_, ?_⟩, fun as' h => h.sameAnswers⟩
  · rw [mem_transitiveDependents, before_addAll]
  · rw [mem_dependents, mem_edges_empty_addAll]
  · rw [mem_dependencies, mem_edges_empty_addAll]

/-- Two layers that wait for each other, one that waits for itself, and one that waits for the first two. -/
def loops : List Addition := [.edge "a" "b", .edge "b" "a", .edge "c" "c", .edge "b" "d"]

/-- The same with repetitions, the other way round. -/
def loopsAgain : List Addition :=
  [.edge "b" "d", .layer "d", .edge "c" "c", .edge "b" "a", .edge "c" "c", .edge "a" "b"]

theorem isClass_of_circle (hn : n ∈ as.flatMap Addition.names)
    (h : ∀ m, m ∈ c ↔ n = m ∨ m ∈ (empty.addAll as).circle n) : IsClass as c :=
  ⟨n, hn, fun m => by rw [h, mem_circle_addAll, mutual_iff]⟩

theorem answers_loops :
    Components loops [["d"], ["b", "a"], ["c"]] ∧ SameParts loops loopsAgain ∧
      circularInOrder loops [["d"], ["b", "a"], ["c"]] = (empty.addAll loops).cycles ∧
      SameAnswers (empty.addAll loops) (empty.addAll loopsAgain) ∧
      (empty.addAll loopsAgain).cycles = [["a", "b"], ["c"]] ∧
      (empty.addAll loopsAgain).transitiveDependents ["a", "e"] = ["b", "d"] := by
  have ha : (empty.addAll loops).circle "a" = ["a", "b"] := by cbv
  have hc : (empty.addAll loops).circle "c" = ["c"] := by cbv
  have hd : (empty.addAll loops).circle "d" = [] := by cbv
  have hcomponents : Components loops [["d"], ["b", "a"], ["c"]] := by
    refine ⟨List.forall_mem_cons.2 ⟨⟨?_, by decide⟩, List.forall_mem_cons.2 ⟨⟨?_, by decide⟩,
      List.forall_mem_singleton.2 ⟨?_, by decide⟩⟩⟩, by decide, by simp [List.Disjoint]⟩
    · exact isClass_of_circle (n := "d") (by decide) fun m => by grind
    · exact isClass_of_circle (n := "a") (by decide) fun m => by grind
    · exact isClass_of_circle (n := "c") (by decide) fun m => by grind
  have hparts : SameParts loops loopsAgain := by
    refine ⟨fun n => ?_, fun a b => ?_⟩
    · grind [loops, loopsAgain, Addition.names]
    · grind [loops, loopsAgain]
  obtain ⟨-, hcycles, -, -, hanswers⟩ := answers_addAll loops
  exact ⟨hcomponents, hparts, hcycles _ hcomponents, hanswers _ hparts, by cbv, by cbv⟩

end LayerCheck.LayerGraph
