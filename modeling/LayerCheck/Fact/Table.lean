import LayerCheck.Fact.Basic
import LayerCheck.Fault
import LayerCheck.Name.Nested
import LayerCheck.Name.Set

/-! The table of facts that the layers of one check share. A place is written at most once. The facts stand in
maps by layer, identifier and key; beside them the table keeps a journal of the places in the order of writing, so
that everything written after a given moment can be taken back. -/
namespace LayerCheck

/-- Facts by layer, identifier and key. -/
abbrev FactMaps := NameMap (NameMap (NameMap Fact))

namespace FactMaps

/-- All maps are in order, and those of layers and identifiers are not empty. -/
def Proper (m : FactMaps) : Prop := m.Each (NameMap.Full (NameMap.Full fun _ => True))

/-- The facts of an identifier in a layer. -/
def factsAt (m : FactMaps) (layer identifier : String) : NameMap Fact := (m.inner layer).inner identifier

/-- Puts down the facts of an identifier in a layer, with a map for the layer if it has none. -/
def putAt (m : FactMaps) (layer identifier : String) (facts : NameMap Fact) : FactMaps :=
  m.insert layer ((m.inner layer).insert identifier facts)

/-- Takes a fact out, and with it the maps that it leaves empty. -/
def remove (m : FactMaps) (p : Fact.Place) : FactMaps :=
  m.within p.layer (·.within p.identifier (·.erase p.key))

namespace Proper

variable {m : FactMaps}

theorem factsAt (h : m.Proper) (layer identifier : String) : (m.factsAt layer identifier).Each fun _ => True :=
  (h.inner layer).inner identifier

theorem putAt (h : m.Proper) (layer identifier : String) {facts : NameMap Fact} (hfacts : facts.Full fun _ => True) :
    (m.putAt layer identifier facts).Proper :=
  (h.insert layer ((h.inner layer).insert identifier hfacts)).2

theorem taken (h : m.Proper) {p : Fact.Place} (hp : (m.factsAt p.layer p.identifier).contains p.key = true) :
    (m.putAt p.layer p.identifier (m.factsAt p.layer p.identifier)).Proper := by
  refine h.putAt _ _ ⟨fun hnil => ?_, h.factsAt _ _⟩
  rw [hnil] at hp
  cases hp

theorem write (h : m.Proper) (p : Fact.Place) (a : Fact) :
    (m.putAt p.layer p.identifier ((m.factsAt p.layer p.identifier).insert p.key a)).Proper :=
  h.putAt _ _ ((h.factsAt _ _).insert p.key trivial)

theorem remove (h : m.Proper) (p : Fact.Place) : (m.remove p).Proper :=
  h.within p.layer fun _ hids => hids.within p.identifier fun _ hfacts => hfacts.erase p.key

end Proper

end FactMaps

structure FactTable where
  entries : FactMaps
  /-- The places written, the latest first. -/
  journal : List Fact.Place
  proper : entries.Proper
deriving Repr

namespace FactTable

def empty : FactTable := ⟨[], [], .nil⟩

/-- The facts of an identifier in a layer, by their keys, if there are any. -/
def facts? (t : FactTable) (layer identifier : String) : Option (NameMap Fact) :=
  (t.entries.get? layer).bind (·.get? identifier)

def get? (t : FactTable) (p : Fact.Place) : Option Fact := (t.facts? p.layer p.identifier).bind (·.get? p.key)

def contains (t : FactTable) (p : Fact.Place) : Bool := (t.get? p).isSome

/-- The number of facts, which is also the mark of the present moment in the journal. -/
def size (t : FactTable) : Nat := t.journal.length

/-- Writes a fact at a place that is still free. The maps that lead to the place are made before it is looked at. -/
def write (t : FactTable) (p : Fact.Place) (a : Fact) : Except Fault Unit × FactTable :=
  let facts := t.entries.factsAt p.layer p.identifier
  if h : facts.contains p.key then
    (.error (.ofCause (.duplicate p.layer p.identifier p.key)),
      ⟨t.entries.putAt p.layer p.identifier facts, t.journal, t.proper.taken h⟩)
  else
    (.ok (), ⟨t.entries.putAt p.layer p.identifier (facts.insert p.key a), p :: t.journal, t.proper.write p a⟩)

/-- The table after a fact is written, if its place is free. -/
def add (t : FactTable) (p : Fact.Place) (a : Fact) : Except Fault FactTable :=
  (t.write p a).1.map fun _ => (t.write p a).2

/-- Takes back the latest fact. -/
def undo (t : FactTable) : FactTable :=
  match t.journal with
  | [] => t
  | p :: journal => ⟨t.entries.remove p, journal, t.proper.remove p⟩

/-- How many facts were written after the moment `mark`. -/
def since (t : FactTable) (mark : Nat) : Nat := t.size - mark

/-- Takes back so many of the facts written last. -/
def undoLast : FactTable → Nat → FactTable
  | t, 0 => t
  | t, n + 1 => undoLast t.undo n

/-- Takes back all facts written after the moment `mark`. -/
def rollback (t : FactTable) (mark : Nat) : FactTable := t.undoLast (t.since mark)

/-! ### Views -/

def layers (t : FactTable) : NameSet := t.entries.keys

/-- The identifiers that have a fact in a layer. -/
def identifiers (t : FactTable) (layer : String) : NameSet := (t.entries.inner layer).keys

/-- The keys of an identifier's facts in a layer. -/
def keys (t : FactTable) (layer identifier : String) : NameSet := (t.entries.factsAt layer identifier).keys

/-- All facts, in increasing order of their places. -/
def facts (t : FactTable) : List (Fact.Place × Fact) :=
  t.entries.flatMap fun (layer, identifiers) =>
    identifiers.flatMap fun (identifier, facts) =>
      facts.map fun (key, fact) => (⟨layer, identifier, key⟩, fact)

end FactTable

end LayerCheck
