/-! Places in a source text. A place is a byte offset inside the program and a line and a column
outside it. The index of a text lists the offsets at which its lines start; the line of an offset is
the number of starts up to it, and the column is the distance from the last of them. -/
namespace LayerCheck

/-- A line and a column, both counted from one; columns count bytes. -/
structure Location where
  line : Nat
  col : Nat
deriving DecidableEq, Repr, Inhabited

namespace Location

def render (l : Location) : String := s!"{l.line}:{l.col}"

/-- The order in which places follow one another in a text. -/
def before (a b : Location) : Prop := a.line < b.line ∨ a.line = b.line ∧ a.col < b.col

end Location

/-- Number of bytes that a list of characters takes in a text. -/
def byteLength : List Char → Nat
  | [] => 0
  | c :: cs => c.utf8Size + byteLength cs

theorem byteLength_append (xs ys : List Char) : byteLength (xs ++ ys) = byteLength xs + byteLength ys := by
  induction xs with
  | nil => simp [byteLength]
  | cons c cs ih => simp [byteLength, ih, Nat.add_assoc]

/-- The byte offsets at which the lines of a text start, the first being zero. -/
structure LineIndex where
  starts : List Nat
deriving DecidableEq, Repr

namespace LineIndex

/-- Offsets just after each newline of a text that itself begins at `pos`. -/
def startsAfter (pos : Nat) : List Char → List Nat
  | [] => []
  | c :: cs =>
    if c = '\n' then (pos + c.utf8Size) :: startsAfter (pos + c.utf8Size) cs
    else startsAfter (pos + c.utf8Size) cs

def ofChars (cs : List Char) : LineIndex := ⟨0 :: startsAfter 0 cs⟩

def lineCount (index : LineIndex) : Nat := index.starts.length

/-- The place of a byte offset; the offset may lie past the end of the text. -/
def locate (index : LineIndex) (offset : Nat) : Location :=
  let upTo := index.starts.takeWhile (· ≤ offset)
  ⟨upTo.length, offset - upTo.getLastD 0 + 1⟩

end LineIndex

end LayerCheck
