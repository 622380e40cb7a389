import LayerCheck.Toml.Text

/-! Reading a TOML document. -/
namespace LayerCheck.Toml

/-- Keys and values may be nested less deeply than this. -/
def nestingLimit : Nat := 80

/-! ### Blanks, comments and keys -/

/-- Takes a comment, if there is one, up to the end of its line. -/
def skipComment (cs : List Char) : NoLonger cs :=
  match cs with
  | '#' :: rest => ⟨rest.dropWhile isTextChar, by
      have := Token.length_dropWhile_le isTextChar rest
      simp only [List.length_cons]
      omega⟩
  | cs => .all cs

/-- Blanks, line ends and comments between the items of an array. -/
def skipSpace (cs : List Char) : NoLonger cs :=
  let ⟨rest, h⟩ := skipLines cs
  let ⟨rest₁, h₁⟩ := skipComment rest
  match lineEnd? rest₁ with
  | some ⟨rest₂, h₂⟩ =>
    let ⟨rest₃, h₃⟩ := skipSpace rest₂
    ⟨rest₃, length_le_beyond h h₁ h₂ h₃⟩
  | none => ⟨rest, h⟩
termination_by cs.length
decreasing_by exact length_lt_of_le h (length_lt_of_le h₁ h₂)

/-- The end of a line: blanks, a comment, and a line end or the end of the document. -/
def endOfLine (cs : List Char) : Option (NoLonger cs) :=
  let ⟨rest, h⟩ := skipBlanks cs
  let ⟨rest₁, h₁⟩ := skipComment rest
  match rest₁ with
  | [] => some ⟨[], by simp⟩
  | c :: more =>
    match lineEnd? (c :: more) with
    | some ⟨rest₂, h₂⟩ => some ⟨rest₂, by omega⟩
    | none => none

/-- Takes one character. -/
def mark (c : Char) (cs : List Char) : Option (Shorter cs) :=
  match cs with
  | d :: rest => if d = c then some ((NoLonger.all rest).behind d) else none
  | [] => none

def isBareChar (c : Char) : Bool := c.isAlphanum || c == '-' || c == '_'

/-- One name of a key. -/
def keyName (cs : List Char) : Reading String cs :=
  match cs with
  | '"' :: rest => do
    let (t, rest') ← basicText rest
    return (String.ofList t, rest'.noLonger.behind '"')
  | '\'' :: rest => do
    let (t, rest') ← literalText rest
    return (String.ofList t, rest'.noLonger.behind '\'')
  | c :: rest =>
    if isBareChar c then
      some (String.ofList (c :: rest.takeWhile isBareChar),
        NoLonger.behind c ⟨rest.dropWhile isBareChar, Token.length_dropWhile_le isBareChar rest⟩)
    else none
  | [] => none

/-- Names divided by dots, with blanks around each. -/
def keyNames (cs : List Char) : Reading (List String) cs := do
  let ⟨rest, h⟩ := skipBlanks cs
  let (name, ⟨rest₁, h₁⟩) ← keyName rest
  let ⟨rest₂, h₂⟩ := skipBlanks rest₁
  match mark '.' rest₂ with
  | some ⟨rest₃, h₃⟩ => do
    let (names, ⟨rest₄, h₄⟩) ← keyNames rest₃
    return (name :: names, ⟨rest₄, by omega⟩)
  | none => return ([name], ⟨rest₂, length_lt_between h h₁ h₂⟩)
termination_by cs.length

/-- A key: the names before the last, and the last. -/
def key (cs : List Char) : Reading (List String × String) cs := do
  let (names, rest) ← keyNames cs
  if nestingLimit ≤ names.length then none
  else
    let last ← names.getLast?
    return ((names.dropLast, last), rest)

/-! ### Values -/

/-- A date, a blank and the time of day make one word. -/
def word (cs : List Char) : Option (List Char × NoLonger cs) :=
  let first := cs.takeWhile isWordChar
  match cs.dropWhile isWordChar with
  | ' ' :: c :: rest =>
    if isDate first && c.isDigit then
      let more := (c :: rest).takeWhile isWordChar
      some (first ++ ' ' :: more, ⟨cs.drop (first.length + 1 + more.length), by simp⟩)
    else some (first, ⟨cs.dropWhile isWordChar, Token.length_dropWhile_le _ _⟩)
  | _ => some (first, ⟨cs.dropWhile isWordChar, Token.length_dropWhile_le _ _⟩)

/-- A number, a truth value or a time. -/
def scalar (cs : List Char) : Reading Toml cs := do
  let (w, ⟨rest, _⟩) ← word cs
  let v ← ofWord w
  if h : rest.length < cs.length then some (v, ⟨rest, h⟩) else none

mutual

/-- A value, inside so many others. -/
def value (depth : Nat) (cs : List Char) : Reading Toml cs :=
  match mark '[' cs, mark '\x7b' cs, quotedText cs with
  | some ⟨rest, h⟩, _, _ =>
    if nestingLimit ≤ depth + 1 then none
    else do
      let (vs, ⟨rest', h'⟩) ← items (depth + 1) rest
      return (.array vs, ⟨rest', by omega⟩)
  | none, some ⟨rest, h⟩, _ =>
    if nestingLimit ≤ depth + 1 then none
    else do
      let (entries, ⟨rest', h'⟩) ← inlineEntries (depth + 1) rest
      return (.table .inline entries, ⟨rest', by omega⟩)
  | none, none, some (t, rest) => some (.text t, rest)
  | none, none, none => scalar cs
termination_by 3 * cs.length + 0

/-- The items of an array up to its closing bracket; a comma may follow the last. -/
def items (depth : Nat) (cs : List Char) : Reading (List Toml) cs := do
  let ⟨rest, h⟩ := skipSpace cs
  match mark ']' rest with
  | some ⟨rest₁, h₁⟩ => return ([], ⟨rest₁, length_lt_of_le h h₁⟩)
  | none => do
    let (v, ⟨rest₁, h₁⟩) ← value depth rest
    let ⟨rest₂, h₂⟩ := skipSpace rest₁
    match mark ',' rest₂ with
    | some ⟨rest₃, h₃⟩ => do
      let (vs, ⟨rest₄, h₄⟩) ← items depth rest₃
      return (v :: vs, ⟨rest₄, by omega⟩)
    | none => do
      let ⟨rest₃, h₃⟩ ← mark ']' rest₂
      return ([v], ⟨rest₃, by omega⟩)
termination_by 3 * cs.length + 1

/-- The entries of a table in braces, its opening one taken away. -/
def inlineEntries (depth : Nat) (cs : List Char) : Reading Entries cs := do
  let ⟨rest, h⟩ := skipBlanks cs
  match mark '\x7d' rest with
  | some ⟨rest₁, h₁⟩ => return ([], ⟨rest₁, length_lt_of_le h h₁⟩)
  | none => do
    let (entries, ⟨rest₁, h₁⟩) ← pairs depth [] rest
    return (entries, ⟨rest₁, by omega⟩)
termination_by 3 * cs.length + 2

/-- One or more pairs of a key and a value, up to a closing brace; all on one line. -/
def pairs (depth : Nat) (found : Entries) (cs : List Char) : Reading Entries cs := do
  let ((path, name), ⟨rest, h⟩) ← key cs
  let ⟨rest₁, h₁⟩ ← mark '=' rest
  let ⟨rest₂, h₂⟩ := skipBlanks rest₁
  let (v, ⟨rest₃, h₃⟩) ← value depth rest₂
  let found ← assign path name v .inline found
  let ⟨rest₄, h₄⟩ := skipBlanks rest₃
  match mark ',' rest₄ with
  | some ⟨rest₅, h₅⟩ => do
    let (entries, ⟨rest₆, h₆⟩) ← pairs depth found rest₅
    return (entries, ⟨rest₆, by omega⟩)
  | none => do
    let ⟨rest₅, h₅⟩ ← mark '\x7d' rest₄
    return (found, ⟨rest₅, by omega⟩)
termination_by 3 * cs.length + 1

end

/-! ### Lines -/

/-- What one line says. -/
inductive Line where
  | nothing
  | header (path : List String) (name : String)
  | doubleHeader (path : List String) (name : String)
  | pair (path : List String) (name : String) (v : Toml)

/-- A header, its opening brackets taken away. -/
def headerLine (double : Bool) (cs : List Char) : Reading Line cs := do
  let ((path, name), ⟨rest₁, h₁⟩) ← key cs
  let ⟨rest₂, h₂⟩ ← mark ']' rest₁
  if double then
    let ⟨rest₃, h₃⟩ ← mark ']' rest₂
    return (.doubleHeader path name, ⟨rest₃, by omega⟩)
  else return (.header path name, ⟨rest₂, by omega⟩)

def pairLine (cs : List Char) : Reading Line cs := do
  let ((path, name), ⟨rest, h⟩) ← key cs
  let ⟨rest₁, h₁⟩ ← mark '=' rest
  let ⟨rest₂, h₂⟩ := skipBlanks rest₁
  let (v, ⟨rest₃, h₃⟩) ← value 0 rest₂
  return (.pair path name v, ⟨rest₃, by omega⟩)

/-- A line, blanks before it taken away, without its end. -/
def lineBody (cs : List Char) : Option (Line × NoLonger cs) :=
  match cs with
  | [] | '#' :: _ | '\n' :: _ | '\r' :: _ => some (.nothing, .all _)
  | '[' :: '[' :: rest => do
    let (line, ⟨rest', h⟩) ← headerLine true rest
    return (line, ⟨rest', by simp only [List.length_cons]; omega⟩)
  | '[' :: rest => do
    let (line, ⟨rest', h⟩) ← headerLine false rest
    return (line, ⟨rest', by simp only [List.length_cons]; omega⟩)
  | cs => do
    let (line, ⟨rest', h⟩) ← pairLine cs
    return (line, ⟨rest', by omega⟩)

/-- A document read so far: all entries, and the header that is open. -/
structure Draft where
  root : Entries
  opened : List String

def Draft.add (d : Draft) : Line → Option Draft
  | .nothing => some d
  | .header path name => (changeAt (openTable name) path d.root).map fun root => ⟨root, path ++ [name]⟩
  | .doubleHeader path name => (changeAt (openNext name) path d.root).map fun root => ⟨root, path ++ [name]⟩
  | .pair path name v => (assignIn d.opened path name v d.root).map fun root => { d with root }

/-- Reads the lines of a document. -/
def lines (d : Draft) (cs : List Char) : Option Entries := do
  let ⟨rest, _⟩ := skipBlanks cs
  let (line, ⟨rest₁, _⟩) ← lineBody rest
  let d ← d.add line
  let ⟨rest₂, _⟩ ← endOfLine rest₁
  if rest₂.isEmpty then return d.root
  else if _h : rest₂.length < cs.length then lines d rest₂
  else none
termination_by cs.length

/-- Reads a document; a byte order mark in front is left out. -/
def parse (s : String) : Option Entries :=
  match s.toList with
  | '\uFEFF' :: cs => lines ⟨[], []⟩ cs
  | cs => lines ⟨[], []⟩ cs

end LayerCheck.Toml
