import Mathlib
import LayerCheck.Proofs.Name.Map
import LayerCheck.Proofs.Schedule.Construction
import LayerCheck.Proofs.Schedule.Reachability
import LayerCheck.Schedule.Closure

/-! The layers that a program needs are the least set that has the layers it names and, with a layer that can be found,
those that it names in turn. Loading goes through this set and no further: it fails exactly when a layer of the set
cannot be found, and otherwise it has a handle for each of them and an edge for each place in the order that one of them
asks for. -/
namespace LayerCheck

namespace Registry

variable {r : Registry} {n : String} {layer : Layer}

/-- A layer is registered under a name that is not disabled. -/
def Provides (r : Registry) (n : String) (layer : Layer) : Prop := r.layers.get? n = some layer ∧ n ∉ r.disabled

/-- No layer is registered under a name, or the name is disabled. -/
def Lacks (r : Registry) (n : String) : Prop := r.layers.get? n = none ∨ n ∈ r.disabled

theorem get?_enabled (r : Registry) (n : String) :
    r.enabled.get? n = if n ∈ r.disabled then none else r.layers.get? n := by
  rw [enabled, NameMap.get?_filter r.layers fun n => !r.disabled.contains n]
  by_cases hn : n ∈ r.disabled
  · simp [hn]
  · simp [hn]

theorem provides_iff : r.Provides n layer ↔ r.enabled.get? n = some layer := by
  rw [Provides, get?_enabled]
  by_cases hn : n ∈ r.disabled
  · simp [hn]
  · simp [hn]

theorem lacks_iff : r.Lacks n ↔ r.enabled.get? n = none := by
  rw [Lacks, get?_enabled]
  by_cases hn : n ∈ r.disabled
  · simp [hn]
  · simp [hn]

theorem Provides.unique {layer' : Layer} (h : r.Provides n layer) (h' : r.Provides n layer') : layer = layer' :=
  Option.some.inj (h.1.symm.trans h'.1)

theorem Provides.not_lacks (h : r.Provides n layer) : ¬ r.Lacks n := by
  rw [lacks_iff, provides_iff.1 h]
  rintro ⟨⟩

/-- A layer is found, or the registry lacks it. -/
theorem find_cases (r : Registry) (n : String) :
    (r.Lacks n ∧ r.find n = .error (.unknownLayer n)) ∨ ∃ layer, r.Provides n layer ∧ r.find n = .ok layer := by
  rw [find]
  cases h : r.enabled.get? n with
  | none => exact .inl ⟨lacks_iff.2 h, rfl⟩
  | some layer => exact .inr ⟨layer, provides_iff.2 h, rfl⟩

end Registry

namespace Closure

/-! ### The layers needed -/

/-- The least set with the named layers that has, with a layer that is provided, the layers that it waits for and those
that wait for it. -/
inductive Needed (r : Registry) (named : NameSet) : String → Prop
  | named {n : String} (h : n ∈ named) : Needed r named n
  | wanted {n m : String} {layer : Layer} (hn : Needed r named n) (hl : r.Provides n layer)
      (hm : m ∈ layer.dependencies ∨ m ∈ layer.runBefore) : Needed r named m

/-- A closure has the layers that are needed, with the layers that the registry provides for them and with the edges
that these ask for. -/
structure Closes (r : Registry) (named : NameSet) (c : Closure) : Prop where
  layers : ∀ n, n ∈ c.graph.layers ↔ Needed r named n
  names : ∀ n, n ∈ c.handles.keys ↔ Needed r named n
  handles : ∀ n layer, c.handles.get? n = some layer ↔ Needed r named n ∧ r.Provides n layer
  edges : ∀ a b, (a, b) ∈ c.graph.edges ↔ ∃ n layer, (Needed r named n ∧ r.Provides n layer) ∧
    (b = n ∧ a ∈ layer.dependencies ∨ a = n ∧ b ∈ layer.runBefore)
  implicit : ∀ n, n ∈ c.implicit ↔ Needed r named n ∧ n ∉ named
  sorted : NameSet.Sorted c.implicit ∧ c.handles.Sorted

variable {r : Registry} {named rest wanted : NameSet} {c : Closure} {name : String} {layer : Layer}

theorem mem_wants {m : String} : m ∈ wants layer ↔ m ∈ layer.dependencies ∨ m ∈ layer.runBefore := by
  rw [wants, NameSet.mem_union, or_comm]

/-! ### One layer more -/

/-- What a layer adds to the graph. -/
def additions (name : String) (layer : Layer) : List LayerGraph.Addition :=
  .layer name :: layer.dependencies.map (.edge · name) ++ layer.runBefore.map (.edge name ·)

theorem graph_load (c : Closure) (name : String) (layer : Layer) :
    (c.load name layer).graph = c.graph.addAll (additions name layer) := by
  simp [load, additions, LayerGraph.addAll, LayerGraph.add, List.foldl_map]

theorem mem_nodes_load {n : String} : n ∈ (c.load name layer).graph.nodes ↔
    n ∈ c.graph.nodes ∨ n = name ∨ n ∈ wants layer := by
  have hnames : n ∈ (additions name layer).flatMap LayerGraph.Addition.names ↔ n = name ∨ n ∈ wants layer := by
    rw [mem_wants]
    simp only [additions, List.cons_append, List.flatMap_cons, List.flatMap_append, List.flatMap_map, List.nil_append,
      List.mem_cons, List.mem_append, List.mem_flatMap, LayerGraph.Addition.names, List.not_mem_nil, or_false]
    constructor
    · rintro (h | ⟨m, hm, h | h⟩ | ⟨m, hm, h | h⟩)
      · exact .inl h
      · exact .inr (.inl (h ▸ hm))
      · exact .inl h
      · exact .inl h
      · exact .inr (.inr (h ▸ hm))
    · rintro (h | h | h)
      · exact .inl h
      · exact .inr (.inl ⟨n, h, .inl rfl⟩)
      · exact .inr (.inr ⟨n, h, .inr rfl⟩)
  rw [graph_load, LayerGraph.mem_nodes_addAll, hnames]

theorem mem_edges_load {a b : String} : (a, b) ∈ (c.load name layer).graph.edges ↔
    (a, b) ∈ c.graph.edges ∨ (b = name ∧ a ∈ layer.dependencies) ∨ (a = name ∧ b ∈ layer.runBefore) := by
  rw [graph_load, LayerGraph.mem_edges_addAll]
  simp [additions, and_comm, eq_comm]

theorem get?_handles_load (c : Closure) (name : String) (layer : Layer) (n : String) :
    (c.load name layer).handles.get? n = if n = name then some layer else c.handles.get? n :=
  NameMap.get?_insert c.handles name n layer

theorem contains_handles_load {n : String} :
    (c.load name layer).handles.contains n = true ↔ n = name ∨ c.handles.contains n = true := by
  rw [NameMap.contains, get?_handles_load, NameMap.contains]
  by_cases hn : n = name
  · simp [hn]
  · simp [hn]

/-- A closure on the way: the `rest` of the named layers and the `wanted` ones are still to be added. -/
structure OnTheWay (r : Registry) (named rest wanted : NameSet) (c : Closure) : Prop where
  found : ∀ n layer, c.handles.get? n = some layer → Needed r named n ∧ r.Provides n layer
  covered : ∀ n ∈ named, c.handles.contains n = true ∨ n ∈ rest
  needed : ∀ n ∈ wanted, Needed r named n
  asked : ∀ n layer, c.handles.get? n = some layer → ∀ m ∈ wants layer, c.handles.contains m = true ∨ m ∈ wanted
  nodes : ∀ n, n ∈ c.graph.nodes ↔ ∃ m layer, c.handles.get? m = some layer ∧ (n = m ∨ n ∈ wants layer)
  edges : ∀ a b, (a, b) ∈ c.graph.edges ↔ ∃ n layer, c.handles.get? n = some layer ∧
    (b = n ∧ a ∈ layer.dependencies ∨ a = n ∧ b ∈ layer.runBefore)
  sorted : c.handles.Sorted

/-- A layer that is needed and provided is added, and what it asks for becomes wanted. -/
theorem OnTheWay.load (h : OnTheWay r named rest wanted c) (hn : Needed r named name) (hl : r.Provides name layer)
    {rest' wanted' : NameSet} (hrest : ∀ n ∈ rest, n = name ∨ n ∈ rest')
    (hwanted : ∀ n ∈ wanted, n = name ∨ n ∈ wanted') (hneeded : ∀ n ∈ wanted', Needed r named n) :
    OnTheWay r named rest' (NameSet.union (wants layer) wanted') (c.load name layer) := by
  -- a layer that was added before under this name is the same one
  have get?_load (n : String) (l : Layer) : (c.load name layer).handles.get? n = some l ↔
      n = name ∧ l = layer ∨ c.handles.get? n = some l := by
    rw [get?_handles_load]
    split
    next hname =>
      refine ⟨fun hsome => .inl ⟨hname, (Option.some.inj hsome).symm⟩, ?_⟩
      rintro (⟨-, rfl⟩ | hold)
      · rfl
      · rw [(h.found n l hold).2.unique (hname ▸ hl)]
    next hname => exact ⟨.inr, fun hor => hor.resolve_left fun heq => hname heq.1⟩
  have exists_load (P : String → Layer → Prop) : (∃ n l, (c.load name layer).handles.get? n = some l ∧ P n l) ↔
      (∃ n l, c.handles.get? n = some l ∧ P n l) ∨ P name layer := by
    simp only [get?_load, or_and_right, exists_or, and_assoc, exists_and_left, exists_eq_left]
    exact or_comm
  refine ⟨fun n l hget => ?_, fun n hnamed => ?_, fun n hn' => ?_, fun n l hget m hm => ?_, fun n => ?_,
    fun a b => ?_, h.sorted.insert name layer⟩
  · rcases (get?_load n l).1 hget with ⟨rfl, rfl⟩ | hold
    · exact ⟨hn, hl⟩
    · exact h.found n l hold
  · rw [contains_handles_load]
    rcases h.covered n hnamed with hold | hmem
    · exact .inl (.inr hold)
    · exact (hrest n hmem).imp_left .inl
  · rcases NameSet.mem_union.1 hn' with hwant | hold
    · exact .wanted hn hl (mem_wants.1 hwant)
    · exact hneeded n hold
  · rw [contains_handles_load, NameSet.mem_union]
    rcases (get?_load n l).1 hget with ⟨-, rfl⟩ | hold
    · exact .inr (.inl hm)
    · rcases h.asked n l hold m hm with hm | hm
      · exact .inl (.inr hm)
      · exact (hwanted m hm).imp .inl .inr
  · rw [mem_nodes_load, h.nodes, exists_load fun m l => n = m ∨ n ∈ wants l]
  · rw [mem_edges_load, h.edges, exists_load fun n l => b = n ∧ a ∈ l.dependencies ∨ a = n ∧ b ∈ l.runBefore]

/-- A wanted layer that was added already is wanted no more. -/
theorem OnTheWay.skip (h : OnTheWay r named rest (name :: wanted) c) (hname : c.handles.contains name = true) :
    OnTheWay r named rest wanted c := by
  refine ⟨h.found, h.covered, fun n hn => h.needed n (List.mem_cons_of_mem _ hn), fun n l hget m hm => ?_, h.nodes,
    h.edges, h.sorted⟩
  rcases h.asked n l hget m hm with hm | hm
  · exact .inl hm
  · rcases List.mem_cons.1 hm with rfl | hm
    · exact .inl hname
    · exact .inr hm

/-- The layers that are there without being named are the implicit ones. -/
def Listed (named : NameSet) (c : Closure) : Prop :=
  NameSet.Sorted c.implicit ∧ ∀ n, n ∈ c.implicit ↔ c.handles.contains n = true ∧ n ∉ named

/-! ### All layers -/

/-- The registry lacks a layer that is needed, and an outcome says so. -/
def Misses {α : Type} (r : Registry) (named : NameSet) (outcome : Except Abort α) : Prop :=
  ∃ n, outcome = .error (.unknownLayer n) ∧ Needed r named n ∧ r.Lacks n

theorem loadNamed_cases (hrest : ∀ n ∈ rest, n ∈ named) (h : OnTheWay r named rest wanted c) (hc : Listed named c) :
    Misses r named (loadNamed r rest (c, wanted)) ∨
      ∃ c' wanted', loadNamed r rest (c, wanted) = .ok (c', wanted') ∧ OnTheWay r named [] wanted' c' ∧
        Listed named c' := by
  induction rest generalizing wanted c with
  | nil => exact .inr ⟨c, wanted, rfl, h, hc⟩
  | cons name rest ih =>
    have hname : name ∈ named := hrest name List.mem_cons_self
    rw [loadNamed]
    rcases r.find_cases name with ⟨hlacks, hfind⟩ | ⟨layer, hprovides, hfind⟩
    · exact .inl ⟨name, by rw [hfind]; rfl, .named hname, hlacks⟩
    · rw [hfind]
      refine ih (fun n hn => hrest n (List.mem_cons_of_mem _ hn)) ?_ ?_
      · exact h.load (.named hname) hprovides (fun n => List.mem_cons.1) (fun n => .inr) h.needed
      · refine ⟨hc.1, fun n => ?_⟩
        rw [contains_handles_load]
        refine (hc.2 n).trans ⟨fun hn => ⟨.inr hn.1, hn.2⟩, ?_⟩
        rintro ⟨rfl | hn, hnot⟩
        · exact absurd hname hnot
        · exact ⟨hn, hnot⟩

theorem loadWanted_cases {free : NameMap Layer}
    (hfree : ∀ n, c.handles.contains n = false → free.get? n = r.enabled.get? n)
    (h : OnTheWay r named [] wanted c) (hc : Listed named c) :
    Misses r named (loadWanted free wanted c) ∨
      ∃ c', loadWanted free wanted c = .ok c' ∧ OnTheWay r named [] [] c' ∧ Listed named c' := by
  fun_induction loadWanted free wanted c with
  | case1 free c => exact .inr ⟨c, rfl, h, hc⟩
  | case2 free name wanted c hname ih => exact ih hfree (h.skip hname) hc
  | case3 free name wanted c hname hget =>
    rw [hfree name (by simpa using hname)] at hget
    exact .inl ⟨name, rfl, h.needed name List.mem_cons_self, Registry.lacks_iff.2 hget⟩
  | case4 free name wanted c hname layer hget c' ih =>
    rw [hfree name (by simpa using hname)] at hget
    -- all the named layers are there already, so this one is not among them
    have hnot : name ∉ named := fun hmem => hname ((h.covered name hmem).resolve_right List.not_mem_nil)
    have hload := h.load (h.needed name List.mem_cons_self) (Registry.provides_iff.2 hget) (fun n => .inr)
      (fun n => List.mem_cons.1) (fun n hn => h.needed n (List.mem_cons_of_mem _ hn))
    refine ih (fun n hn => ?_) { hload with } ⟨hc.1.insert name, fun n => ?_⟩
    · obtain ⟨hne, hold⟩ := not_or.1 fun hor => Bool.false_ne_true (hn.symm.trans (contains_handles_load.2 hor))
      rw [NameMap.get?_erase, if_neg hne]
      exact hfree n (by simpa using hold)
    · rw [NameSet.mem_insert, contains_handles_load]
      refine ⟨?_, ?_⟩
      · rintro (rfl | hn)
        · exact ⟨.inl rfl, hnot⟩
        · exact ⟨.inr ((hc.2 n).1 hn).1, ((hc.2 n).1 hn).2⟩
      · rintro ⟨rfl | hn, hnn⟩
        · exact .inl rfl
        · exact .inr ((hc.2 n).2 ⟨hn, hnn⟩)

/-- When nothing is left to add, the layers that are there are the needed ones. -/
theorem OnTheWay.contains_iff (h : OnTheWay r named [] [] c) {n : String} :
    c.handles.contains n = true ↔ Needed r named n := by
  constructor
  · intro hn
    obtain ⟨layer, hget⟩ := Option.isSome_iff_exists.1 hn
    exact (h.found n layer hget).1
  · intro hn
    induction hn with
    | named hn => exact (h.covered _ hn).resolve_right List.not_mem_nil
    | wanted hn hl hm ih =>
      obtain ⟨layer, hget⟩ := Option.isSome_iff_exists.1 ih
      obtain rfl := (h.found _ layer hget).2.unique hl
      exact (h.asked _ _ hget _ (mem_wants.2 hm)).resolve_right List.not_mem_nil

theorem OnTheWay.get?_iff (h : OnTheWay r named [] [] c) {n : String} {layer : Layer} :
    c.handles.get? n = some layer ↔ Needed r named n ∧ r.Provides n layer := by
  refine ⟨h.found n layer, ?_⟩
  rintro ⟨hn, hl⟩
  obtain ⟨layer', hget⟩ := Option.isSome_iff_exists.1 (h.contains_iff.2 hn)
  rw [hget, (h.found n layer' hget).2.unique hl]

theorem OnTheWay.closes (h : OnTheWay r named [] [] c) (hc : Listed named c) : Closes r named c where
  layers n := by
    rw [LayerGraph.mem_layers, h.nodes, ← h.contains_iff]
    constructor
    · rintro ⟨m, layer, hget, rfl | hn⟩
      · exact Option.isSome_iff_exists.2 ⟨layer, hget⟩
      · exact (h.asked m layer hget n hn).resolve_right List.not_mem_nil
    · intro hn
      obtain ⟨layer, hget⟩ := Option.isSome_iff_exists.1 hn
      exact ⟨n, layer, hget, .inl rfl⟩
  names n := by rw [NameMap.mem_keys h.sorted, ← Option.isSome_iff_exists, ← h.contains_iff, NameMap.contains]
  handles n layer := h.get?_iff
  edges a b := by simp only [h.edges, h.get?_iff]
  implicit n := by rw [hc.2, h.contains_iff]
  sorted := ⟨hc.1, h.sorted⟩

/-- Loading misses a layer that is needed, or closes the named layers. -/
theorem ofNames_cases (r : Registry) (named : NameSet) :
    Misses r named (ofNames r named) ∨
      (∀ n, Needed r named n → ¬ r.Lacks n) ∧ ∃ c, ofNames r named = .ok c ∧ Closes r named c := by
  have hstart : OnTheWay r named named [] empty := by
    refine ⟨?_, fun n hn => .inr hn, ?_, ?_, ?_, ?_, List.Pairwise.nil⟩ <;> simp [empty, LayerGraph.empty, NameMap.get?]
  have hlisted : Listed named empty := ⟨List.Pairwise.nil, by simp [empty, NameMap.contains, NameMap.get?]⟩
  rw [ofNames]
  rcases loadNamed_cases (fun n => id) hstart hlisted with ⟨n, herror, hn⟩ | ⟨c, wanted, hok, h, hc⟩
  · rw [herror]
    exact .inl ⟨n, rfl, hn⟩
  · rw [hok]
    have hfree (n : String) (hn : c.handles.contains n = false) :
        NameMap.get? (r.enabled.filter fun p => !c.handles.contains p.1) n = r.enabled.get? n := by
      rw [NameMap.get?_filter r.enabled fun n => !c.handles.contains n, if_pos (by rw [hn]; rfl)]
    refine (loadWanted_cases hfree h hc).imp_right ?_
    rintro ⟨c', hok', h', hc'⟩
    refine ⟨fun n hn => ?_, c', hok', h'.closes hc'⟩
    obtain ⟨layer, hget⟩ := Option.isSome_iff_exists.1 (h'.contains_iff.2 hn)
    exact (h'.found n layer hget).2.not_lacks

/-- The closure of the named layers is loaded exactly if no layer that is needed is missing or disabled; else one that
is needed and cannot be found is reported. -/
theorem ofNames_closes (r : Registry) (named : NameSet) :
    ((∃ abort, ofNames r named = .error abort) ↔ ∃ n, Needed r named n ∧ r.Lacks n) ∧
      (∀ abort, ofNames r named = .error abort → ∃ n, abort = .unknownLayer n ∧ Needed r named n ∧ r.Lacks n) ∧
      ((∀ n, Needed r named n → ¬ r.Lacks n) → ∃ c, ofNames r named = .ok c ∧ Closes r named c) := by
  rcases ofNames_cases r named with ⟨n, herror, hneeded, hlacks⟩ | ⟨hfound, c, hok, hcloses⟩
  · refine ⟨⟨fun _ => ⟨n, hneeded, hlacks⟩, fun _ => ⟨_, herror⟩⟩, ?_, fun hall => absurd hlacks (hall n hneeded)⟩
    intro abort habort
    exact ⟨n, Except.error.inj (habort.symm.trans herror), hneeded, hlacks⟩
  · have hne (abort : Abort) : ofNames r named ≠ .error abort := by
      rw [hok]
      rintro ⟨⟩
    refine ⟨⟨?_, ?_⟩, fun abort habort => absurd habort (hne abort), fun _ => ⟨c, hok, hcloses⟩⟩
    · rintro ⟨abort, habort⟩
      exact absurd habort (hne abort)
    · rintro ⟨n, hneeded, hlacks⟩
      exact absurd hlacks (hfound n hneeded)

/-- A layer that accepts every program. -/
def idle (name : String) (dependencies runBefore : NameSet) : Layer :=
  { name, dependencies, runBefore, check := fun _ table => { table, outcome := .ok () } }

/-- Layers that ask for one another, and one that asks for itself. -/
def entangled (disabled : List String) : Registry :=
  ⟨[("a", idle "a" ["b"] []), ("b", idle "b" ["a"] ["b", "c"]), ("c", idle "c" [] ["a"])], disabled⟩

theorem entangled_closes :
    (∀ n, Needed (entangled []) ["a"] n → ¬ (entangled []).Lacks n) ∧
      (∃ c, ofNames (entangled []) ["a"] = .ok c ∧ Closes (entangled []) ["a"] c ∧ c.implicit = ["b", "c"]) ∧
      ∃ n, ofNames (entangled ["c"]) ["a"] = .error (.unknownLayer n) ∧ Needed (entangled ["c"]) ["a"] n ∧
        (entangled ["c"]).Lacks n := by
  have hok : (ofNames (entangled []) ["a"]).toOption.map (·.implicit) = some ["b", "c"] := by cbv
  have herror : (ofNames (entangled ["c"]) ["a"]).toOption.map (·.implicit) = none := by cbv
  obtain ⟨hiff, -, hcloses⟩ := ofNames_closes (entangled []) ["a"]
  obtain ⟨-, hnames, -⟩ := ofNames_closes (entangled ["c"]) ["a"]
  have hfound (n : String) (hn : Needed (entangled []) ["a"] n) : ¬ (entangled []).Lacks n := by
    intro hlacks
    obtain ⟨abort, habort⟩ := hiff.2 ⟨n, hn, hlacks⟩
    rw [habort] at hok
    cases hok
  refine ⟨hfound, ?_, ?_⟩
  · obtain ⟨c, hc, hcloses⟩ := hcloses hfound
    rw [hc] at hok
    exact ⟨c, hc, hcloses, Option.some.inj hok⟩
  · cases h : ofNames (entangled ["c"]) ["a"] with
    | ok c =>
      rw [h] at herror
      cases herror
    | error abort =>
      obtain ⟨n, rfl, hn⟩ := hnames abort h
      exact ⟨n, rfl, hn⟩

end Closure

end LayerCheck
