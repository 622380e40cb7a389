/-! A bounded list of error texts: beyond its limit, errors are only counted. -/
namespace LayerCheck

structure Diagnostics where
  limit : Nat := 100
  kept : List String := []
  dropped : Nat := 0
deriving DecidableEq, Repr

namespace Diagnostics

def add (d : Diagnostics) (error : String) : Diagnostics :=
  if d.kept.length < d.limit then { d with kept := d.kept ++ [error] }
  else { d with dropped := d.dropped + 1 }

def hasErrors (d : Diagnostics) : Bool := !d.kept.isEmpty

/-- The number of errors, kept or not. -/
def count (d : Diagnostics) : Nat := d.kept.length + d.dropped

end Diagnostics

end LayerCheck
