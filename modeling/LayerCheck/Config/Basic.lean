/-! The options of a check. -/
namespace LayerCheck

structure CheckOptions where
  /-- End at the first layer that fails. -/
  raiseOnError : Bool := false
  /-- Check control flow before anything else. -/
  controlFlow : Bool := true
deriving DecidableEq, Repr

structure LiquidOptions where
  /-- Integers are tried from `-solverBound` to `solverBound`. -/
  solverBound : Int := 16
  maxAssignments : Nat := 2000000
  cacheCapacity : Nat := 1024
deriving DecidableEq, Repr

inductive ErrorFormat where
  | default | json | compact
deriving DecidableEq, Repr

structure ErrorOptions where
  maxErrors : Nat := 100
  showSuggestions : Bool := true
  color : Bool := true
  format : ErrorFormat := .default
deriving DecidableEq, Repr

structure LayerOptions where
  /-- Names of layers that no check may use. -/
  disabled : List String := []
deriving DecidableEq, Repr

structure Config where
  check : CheckOptions := {}
  liquid : LiquidOptions := {}
  errors : ErrorOptions := {}
  layers : LayerOptions := {}
deriving DecidableEq, Repr

def Config.isLayerDisabled (c : Config) (name : String) : Bool := c.layers.disabled.contains name

end LayerCheck
