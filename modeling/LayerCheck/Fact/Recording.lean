import LayerCheck.Fact.Table

/-! Steps that write facts into a table and may fail; what was written before a failure stays. -/
namespace LayerCheck

abbrev Recording := ExceptT Fault (StateM FactTable)

namespace Recording

def ofExcept {α : Type} (r : Except Fault α) : Recording α := ExceptT.mk (pure r)

/-- Writes a fact for a declaration at `loc`. -/
def write (p : Fact.Place) (a : Fact) (loc : Location) : Recording Unit := do
  let (outcome, table) := (← get).write p a
  set table
  ofExcept (outcome.mapError (·.orLoc loc))

end Recording

end LayerCheck
