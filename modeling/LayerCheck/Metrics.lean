import LayerCheck.Name.Map
import LayerCheck.Text.Duration

/-! Measurements of a run: time spent and events counted, each under a name. -/
namespace LayerCheck

structure Metrics where
  /-- Nanoseconds spent. -/
  times : NameMap Nat
  counters : NameMap Nat
deriving Repr

namespace Metrics

def empty : Metrics := ⟨[], []⟩

def increase (name : String) (n : Nat) (m : NameMap Nat) : NameMap Nat :=
  m.insert name ((m.get? name).getD 0 + n)

/-- Adds time spent. -/
def time (m : Metrics) (name : String) (nanoseconds : Nat) : Metrics :=
  { m with times := increase name nanoseconds m.times }

/-- Adds to a counter. -/
def count (m : Metrics) (name : String) (n : Nat) : Metrics :=
  { m with counters := increase name n m.counters }

def counter (m : Metrics) (name : String) : Nat := (m.counters.get? name).getD 0

/-- Times in whole microseconds. -/
def microseconds (m : Metrics) : NameMap Nat := m.times.map fun (name, t) => (name, t / 1000)

def total (m : Metrics) : Nat := m.microseconds.foldl (fun total t => total + t.2) 0

def timeLine (name : String) (microseconds : Nat) : String :=
  Text.padRight 16 name ++ " " ++ Text.padLeft 10 (Text.duration (1000 * microseconds))

/-- The measurements as a table for people. -/
def report (m : Metrics) : String :=
  let times := m.microseconds.map fun (name, t) => timeLine name t
  let counters := match m.counters with
    | [] => []
    | counters => "" :: "=== Counters ===" :: counters.map fun (name, n) => Text.padRight 24 name ++ s!" {n}"
  "\n".intercalate ("=== Layer timings ===" :: times ++ timeLine "total" m.total :: counters)

end Metrics

end LayerCheck
