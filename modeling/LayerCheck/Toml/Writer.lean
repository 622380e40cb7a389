/-! Writing texts of TOML in the plainest quotes that do: double quotes unless something would have to be
escaped, then single quotes, then either of them tripled, and escapes only as the last resort. -/
namespace LayerCheck.Toml

/-- Control characters that can only be written as escapes. -/
def needsEscape (c : Char) : Bool := c ≠ '\t' && c ≠ '\n' && (c.toNat < 32 || c.toNat = 127)

/-- Whether a character occurs `n` times in a row. -/
def hasRun (c : Char) (n : Nat) : List Char → Bool
  | [] => n = 0
  | d :: cs => (List.replicate n c).isPrefixOf (d :: cs) || hasRun c n cs

def hexDigits (n : Nat) : List Char :=
  let digits := (Nat.toDigits 16 n).map Char.toUpper
  List.replicate (4 - digits.length) '0' ++ digits

/-- A character between double quotes; tripled ones leave line ends alone. -/
def escaped (tripled : Bool) (c : Char) : List Char :=
  match c with
  | '\x08' => ['\\', 'b']
  | '\t' => ['\\', 't']
  | '\n' => if tripled then ['\n'] else ['\\', 'n']
  | '\x0c' => ['\\', 'f']
  | '\r' => ['\\', 'r']
  | '\\' => ['\\', '\\']
  | c => if needsEscape c then '\\' :: 'u' :: hexDigits c.toNat else [c]

/-- A text between double quotes, after `run` quotes; so many in a row need no escape. -/
def escapedFrom (tripled : Bool) (run : Nat) : List Char → List Char
  | [] => []
  | '"' :: cs =>
    if tripled && run < 2 then '"' :: escapedFrom tripled (run + 1) cs
    else '\\' :: '"' :: escapedFrom tripled 0 cs
  | c :: cs => escaped tripled c ++ escapedFrom tripled 0 cs

def written (s : String) : String :=
  let cs := s.toList
  let control := cs.any needsEscape
  let backslash := cs.contains '\\'
  let lineEnd := cs.contains '\n'
  let start := if lineEnd then "\n" else ""
  if !control && !backslash && !lineEnd && !cs.contains '"' then
    "\"" ++ String.ofList (escapedFrom false 0 cs) ++ "\""
  else if !control && !lineEnd && !cs.contains '\'' then "'" ++ s ++ "'"
  else if !control && !backslash && !hasRun '"' 3 cs then
    "\"\"\"" ++ start ++ String.ofList (escapedFrom true 0 cs) ++ "\"\"\""
  else if !control && !hasRun '\'' 3 cs then "'''" ++ start ++ s ++ "'''"
  else if lineEnd then "\"\"\"" ++ start ++ String.ofList (escapedFrom true 0 cs) ++ "\"\"\""
  else "\"" ++ String.ofList (escapedFrom false 0 cs) ++ "\""

/-- An array of texts: on one line up to one item, else one item to a line. -/
def writtenArray (items : List String) : String :=
  match items with
  | [] => "[]"
  | [item] => "[" ++ written item ++ "]"
  | items => "[\n" ++ String.join (items.map fun item => "    " ++ written item ++ ",\n") ++ "]"

end LayerCheck.Toml
