/-! Text of durations for people: a number with two decimals in the largest unit that fits. -/
namespace LayerCheck

/-- Nearest quotient, a half going to the even neighbour. -/
def roundHalfEven (n d : Nat) : Nat :=
  let q := n / d
  let twice := 2 * (n % d)
  if twice < d then q else if d < twice then q + 1 else if q % 2 = 0 then q else q + 1

namespace Text

def padRight (width : Nat) (s : String) : String := s ++ "".pushn ' ' (width - s.length)

def padLeft (width : Nat) (s : String) : String := "".pushn ' ' (width - s.length) ++ s

/-- A count of hundredths, with two decimals. -/
def hundredths (n : Nat) : String :=
  let rest := n % 100
  s!"{n / 100}." ++ (if rest < 10 then s!"0{rest}" else s!"{rest}")

/-- A duration in nanoseconds; its unit is chosen before rounding. -/
def duration (nanoseconds : Nat) : String :=
  let inUnit (size : Nat) (name : String) := hundredths (roundHalfEven (100 * nanoseconds) size) ++ name
  if nanoseconds ≥ 1000000000 then inUnit 1000000000 "s"
  else if nanoseconds ≥ 1000000 then inUnit 1000000 "ms"
  else if nanoseconds ≥ 1000 then inUnit 1000 "µs"
  else inUnit 1 "ns"

end Text

end LayerCheck
