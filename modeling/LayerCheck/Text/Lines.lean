import LayerCheck.Text.Blank

/-! Lines of a text. -/
namespace LayerCheck.Text

/-- A line without the carriage return before its line end. -/
def dropReturn (line : List Char) : List Char :=
  if line.getLast? = some '\r' then line.dropLast else line

/-- The lines of a text that has `started` on its first one. A line end at the very end begins no line. -/
def linesFrom (started : List Char) : List Char → List (List Char)
  | [] => if started.isEmpty then [] else [started.reverse]
  | '\n' :: cs => dropReturn started.reverse :: linesFrom [] cs
  | c :: cs => linesFrom (c :: started) cs

def lines (s : String) : List (List Char) := linesFrom [] s.toList

/-- A text without the lines that, blanks apart, begin with a word. -/
def dropLines (word s : String) : String :=
  let kept := (lines s).filter fun line => !word.toList.isPrefixOf (trimStart line)
  "\n".intercalate (kept.map String.ofList)

end LayerCheck.Text
