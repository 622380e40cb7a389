/-! Names that resemble a given one. The distance of two names is the least number of characters to
insert, delete or replace to make one of the other; it is computed row by row, a row holding the
distances from one beginning of the first name to every beginning of the second. -/
namespace LayerCheck.Text

/-- The rest of a row for one more character `x` of the first text. An entry follows from the one to its left, the
one above it and the one in the corner between them. -/
def fillRow (x : Char) : Nat → List Char → List Nat → List Nat
  | left, y :: ys, corner :: above :: row =>
    let d := min (min (above + 1) (left + 1)) (corner + if x = y then 0 else 1)
    d :: fillRow x d ys (above :: row)
  | _, _, _ => []

/-- The row of the first `i` characters, of which `x` is the last. Its first entry is the distance from nothing. -/
def nextRow (i : Nat) (x : Char) (ys : List Char) (row : List Nat) : List Nat := i :: fillRow x i ys row

/-- The row of the whole first text, from that of its first `i` characters. -/
def lastRow (ys : List Char) : Nat → List Char → List Nat → List Nat
  | _, [], row => row
  | i, x :: xs, row => lastRow ys (i + 1) xs (nextRow (i + 1) x ys row)

def editDistance (a b : String) : Nat :=
  let xs := a.toList
  let ys := b.toList
  if xs.isEmpty then ys.length
  else if ys.isEmpty then xs.length
  else (lastRow ys 0 xs (List.range (ys.length + 1))).getLastD 0

/-- Nearer names first; names at one distance in their own order. -/
def nearer (a b : Nat × String) : Bool := a.1 < b.1 || a.1 == b.1 && a.2 ≤ b.2

/-- The candidates that differ from `target` by at most `limit` characters, and do differ. -/
def similarNames (target : String) (candidates : List String) (limit : Nat) : List String :=
  let scored := candidates.map fun c => (editDistance target c, c)
  ((scored.filter fun (d, _) => 0 < d && d ≤ limit).mergeSort nearer).map (·.2)

end LayerCheck.Text
