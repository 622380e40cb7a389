import LayerCheck.Layer.Basic
import LayerCheck.Metrics

/-! What a check of a program reports. -/
namespace LayerCheck

/-- What became of a layer. -/
inductive LayerState where
  | unprocessed
  /-- Its check is under way, which is not so of any layer once a run has ended. -/
  | verifying
  | success
  | failure
  /-- Never run, because a layer before it failed or lies on a cycle. -/
  | blocked
  /-- Never run, because it lies on a cycle. -/
  | cycle
deriving DecidableEq, Repr

def LayerState.label : LayerState → String
  | unprocessed => "unprocessed"
  | verifying => "verifying"
  | success => "success"
  | failure => "failure"
  | blocked => "blocked"
  | cycle => "cycle"

structure Report where
  states : NameMap LayerState
  /-- The layers that ran, in order. -/
  order : List String
  failures : List (String × Fault)
  cycles : List (List String)
  /-- The layers that were only asked for by others. -/
  implicit : List String
  metrics : Metrics

namespace Report

def success (r : Report) : Bool := r.states.all (·.2 == .success)

def layersIn (r : Report) (s : LayerState) : List String := (r.states.filter (·.2 == s)).map (·.1)

/-- The operation at which the first of the failed checks broke off that did. -/
def broken? (r : Report) : Option WordOp := r.failures.findSome? fun (_, fault) => fault.broken?

/-- One text for each failed layer, each cycle and each blocked layer. -/
def errors (r : Report) : List String :=
  r.failures.map (fun (layer, fault) => Abort.layerText layer fault) ++
    r.cycles.map Abort.cycleText ++
    (r.layersIn .blocked).map fun layer => s!"[{layer}] not checked: a dependency failed"

end Report

end LayerCheck
