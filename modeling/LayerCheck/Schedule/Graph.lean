import LayerCheck.Name.Set

/-! The order in which layers must run, as a directed graph: an edge from `a` to `b` says that `a`
comes before `b`. Layers that wait for one another in a circle form a cycle and can never run. -/
namespace LayerCheck

structure LayerGraph where
  /-- The layers, in the order in which they were added. -/
  nodes : List String
  /-- Pairs of a layer and one that waits for it. -/
  edges : List (String × String)
  closed : ∀ e ∈ edges, e.1 ∈ nodes ∧ e.2 ∈ nodes
deriving DecidableEq, Repr

namespace LayerGraph

def empty : LayerGraph := ⟨[], [], List.forall_mem_nil _⟩

def isEmpty (g : LayerGraph) : Bool := g.nodes.isEmpty

def contains (g : LayerGraph) (n : String) : Bool := g.nodes.contains n

theorem closed_addNode (g : LayerGraph) (n : String) :
    ∀ e ∈ g.edges, e.1 ∈ g.nodes ++ [n] ∧ e.2 ∈ g.nodes ++ [n] := by
  intro e he
  have h := g.closed e he
  exact ⟨List.mem_append_left _ h.1, List.mem_append_left _ h.2⟩

def addLayer (g : LayerGraph) (n : String) : LayerGraph :=
  if g.contains n then g else ⟨g.nodes ++ [n], g.edges, g.closed_addNode n⟩

theorem mem_addLayer {g : LayerGraph} {n m : String} : m ∈ (g.addLayer n).nodes ↔ m ∈ g.nodes ∨ m = n := by
  rw [addLayer]
  split
  next h =>
    have hn : n ∈ g.nodes := List.contains_iff_mem.1 h
    exact ⟨.inl, fun hm => hm.elim id (· ▸ hn)⟩
  next => simp

/-- The graph with both ends of an edge among its layers. -/
def addEnds (g : LayerGraph) (before after : String) : LayerGraph := (g.addLayer before).addLayer after

theorem closed_addEnds (g : LayerGraph) (before after : String) :
    ∀ e ∈ (g.addEnds before after).edges ++ [(before, after)],
      e.1 ∈ (g.addEnds before after).nodes ∧ e.2 ∈ (g.addEnds before after).nodes := by
  intro e he
  rcases List.mem_append.1 he with he | he
  · exact (g.addEnds before after).closed e he
  · obtain rfl := List.mem_singleton.1 he
    simp [addEnds, mem_addLayer]

/-- Lets `before` run before `after`; both become layers of the graph. -/
def addEdge (g : LayerGraph) (before after : String) : LayerGraph :=
  let g' := g.addEnds before after
  if g'.edges.contains (before, after) then g'
  else ⟨g'.nodes, g'.edges ++ [(before, after)], g.closed_addEnds before after⟩

/-- The position at which a layer was added. -/
def index (g : LayerGraph) (n : String) : Nat := g.nodes.idxOf n

def layers (g : LayerGraph) : NameSet := .ofList g.nodes

/-- The layers that `n` waits for. -/
def dependencies (g : LayerGraph) (n : String) : NameSet :=
  .ofList ((g.edges.filter (·.2 == n)).map (·.1))

/-- The layers that wait for `n`. -/
def dependents (g : LayerGraph) (n : String) : NameSet :=
  .ofList ((g.edges.filter (·.1 == n)).map (·.2))

/-! ### Reachability -/

/-- All of `unseen` that a walk along `next` meets, beginning at the `pending` names. -/
def reachFrom (next : String → List String) (unseen : List String) : List String → List String
  | [] => []
  | x :: pending =>
    if x ∈ unseen then x :: reachFrom next (unseen.erase x) (next x ++ pending)
    else reachFrom next unseen pending
termination_by pending => (unseen.length, pending.length)
decreasing_by
  · rename_i h
    have : 0 < unseen.length := List.length_pos_of_mem h
    simp only [List.length_erase_of_mem h]
    exact Prod.Lex.left _ _ (by omega)
  · exact Prod.Lex.right _ (by simp)

/-- The layers that come after one of `roots`, directly or through others. -/
def after (g : LayerGraph) (roots : List String) : List String :=
  reachFrom g.dependents g.nodes (roots.flatMap g.dependents)

/-- The layers outside `roots` that come after one of them. -/
def transitiveDependents (g : LayerGraph) (roots : List String) : NameSet :=
  NameSet.diff (.ofList (g.after roots)) roots

/-- The layers that come both before and after `n`: none, unless `n` lies on a cycle. -/
def circle (g : LayerGraph) (n : String) : NameSet :=
  NameSet.ofList ((g.after [n]).filter fun m => (g.after [m]).contains n)

/-- The cycles: each is listed once, by the names of its layers in order. -/
def cycles (g : LayerGraph) : List (List String) :=
  g.layers.filterMap fun n =>
    let circle := g.circle n
    if circle.head? = some n then some circle else none

end LayerGraph

end LayerCheck
