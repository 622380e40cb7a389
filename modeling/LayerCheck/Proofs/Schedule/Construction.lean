import Mathlib
import LayerCheck.Schedule.Graph

/-! What is in a graph of layers after additions to it: the layers that were there or were named, and the edges that
were there or were added, in whatever order and however often. -/
namespace LayerCheck.LayerGraph

/-- One addition to a graph. -/
inductive Addition where
  | layer (n : String)
  | edge (before after : String)
deriving DecidableEq, Repr

/-- The layers that an addition names. -/
def Addition.names : Addition → List String
  | layer n => [n]
  | edge before after => [before, after]

def add (g : LayerGraph) : Addition → LayerGraph
  | .layer n => g.addLayer n
  | .edge before after => g.addEdge before after

def addAll (g : LayerGraph) (as : List Addition) : LayerGraph := as.foldl add g

variable {g : LayerGraph} {n a b : String} {e : String × String}

theorem edges_addLayer (g : LayerGraph) (n : String) : (g.addLayer n).edges = g.edges := by
  unfold addLayer
  split <;> rfl

theorem mem_nodes_addEdge : n ∈ (g.addEdge a b).nodes ↔ n ∈ g.nodes ∨ n = a ∨ n = b := by
  have hends : (g.addEdge a b).nodes = (g.addEnds a b).nodes := by
    unfold addEdge
    dsimp only
    split <;> rfl
  rw [hends, addEnds, mem_addLayer, mem_addLayer, or_assoc]

theorem mem_edges_addEdge : e ∈ (g.addEdge a b).edges ↔ e ∈ g.edges ∨ e = (a, b) := by
  have hends : (g.addEnds a b).edges = g.edges := by rw [addEnds, edges_addLayer, edges_addLayer]
  unfold addEdge
  dsimp only
  split
  next hmem =>
    rw [List.contains_iff_mem, hends] at hmem
    rw [hends]
    exact ⟨.inl, fun h => h.elim id (· ▸ hmem)⟩
  next =>
    change e ∈ (g.addEnds a b).edges ++ [(a, b)] ↔ _
    rw [hends, List.mem_append, List.mem_singleton]

theorem addAll_cons (g : LayerGraph) (addition : Addition) (as : List Addition) :
    g.addAll (addition :: as) = (g.add addition).addAll as := rfl

theorem mem_nodes_addAll {as : List Addition} :
    n ∈ (g.addAll as).nodes ↔ n ∈ g.nodes ∨ n ∈ as.flatMap Addition.names := by
  induction as generalizing g with
  | nil => simp [addAll]
  | cons addition as ih =>
    have hstep : n ∈ (g.add addition).nodes ↔ n ∈ g.nodes ∨ n ∈ addition.names := by
      cases addition with
      | layer m => simp [add, Addition.names, mem_addLayer]
      | edge before after => simp [add, Addition.names, mem_nodes_addEdge]
    rw [addAll_cons, ih, hstep, or_assoc, List.flatMap_cons, List.mem_append]

theorem mem_edges_addAll {as : List Addition} :
    (a, b) ∈ (g.addAll as).edges ↔ (a, b) ∈ g.edges ∨ .edge a b ∈ as := by
  induction as generalizing g with
  | nil => simp [addAll]
  | cons addition as ih =>
    have hstep : (a, b) ∈ (g.add addition).edges ↔ (a, b) ∈ g.edges ∨ .edge a b = addition := by
      cases addition with
      | layer m => simp [add, edges_addLayer]
      | edge before after => simp [add, mem_edges_addEdge]
    rw [addAll_cons, ih, hstep, or_assoc, List.mem_cons]

end LayerCheck.LayerGraph
