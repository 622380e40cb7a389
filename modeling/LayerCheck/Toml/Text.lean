import LayerCheck.Toml.Scalar
import LayerCheck.Token.Rest

/-! Texts of TOML: in double quotes with escapes or in single quotes without, on one line or, with the
quotes tripled, on several. -/
namespace LayerCheck.Toml

/-- What a reader of characters gives: a value and what is left, if the text fits. -/
abbrev Reading (α : Type) (cs : List Char) := Option (α × Shorter cs)

/-- Characters that may stand in a text, line ends and quotes apart. -/
def isTextChar (c : Char) : Bool := c == '\t' || 32 ≤ c.toNat && c.toNat ≠ 127

/-- Takes a line end, if there is one. -/
def lineEnd? (cs : List Char) : Option (Shorter cs) :=
  match cs with
  | '\n' :: rest => some ⟨rest, by simp⟩
  | '\r' :: '\n' :: rest => some ⟨rest, by simp only [List.length_cons]; omega⟩
  | _ => none

def isBlankChar (c : Char) : Bool := c == ' ' || c == '\t'

def skipBlanks (cs : List Char) : NoLonger cs := ⟨cs.dropWhile isBlankChar, Token.length_dropWhile_le _ _⟩

/-- A character given by a number of hexadecimal digits. -/
def codePoint (width : Nat) (cs : List Char) : Option (Char × NoLonger cs) :=
  let digits := cs.take width
  let n := ofBase 16 digits
  if digits.length = width ∧ digits.all isHex ∧ n.isValidChar then
    some (Char.ofNat n, ⟨cs.drop width, by simp⟩)
  else none

/-- The character that an escape stands for, its backslash taken away. -/
def escape (cs : List Char) : Reading Char cs :=
  match cs with
  | 'b' :: rest => some ('\x08', ⟨rest, by simp⟩)
  | 't' :: rest => some ('\t', ⟨rest, by simp⟩)
  | 'n' :: rest => some ('\n', ⟨rest, by simp⟩)
  | 'f' :: rest => some ('\x0c', ⟨rest, by simp⟩)
  | 'r' :: rest => some ('\r', ⟨rest, by simp⟩)
  | '"' :: rest => some ('"', ⟨rest, by simp⟩)
  | '\\' :: rest => some ('\\', ⟨rest, by simp⟩)
  | 'u' :: rest => do
    let (c, ⟨rest', h⟩) ← codePoint 4 rest
    return (c, ⟨rest', by simp only [List.length_cons]; omega⟩)
  | 'U' :: rest => do
    let (c, ⟨rest', h⟩) ← codePoint 8 rest
    return (c, ⟨rest', by simp only [List.length_cons]; omega⟩)
  | _ => none

/-! ### On one line -/

/-- A text up to its closing double quote. -/
def basicText (cs : List Char) : Reading (List Char) cs :=
  match cs with
  | [] => none
  | '"' :: rest => some ([], ⟨rest, by simp⟩)
  | '\\' :: rest => do
    let (c, ⟨rest₁, h₁⟩) ← escape rest
    let (body, ⟨rest₂, h₂⟩) ← basicText rest₁
    return (c :: body, ⟨rest₂, by simp only [List.length_cons]; omega⟩)
  | c :: rest =>
    if isTextChar c then do
      let (body, ⟨rest₁, h₁⟩) ← basicText rest
      return (c :: body, ⟨rest₁, by simp only [List.length_cons]; omega⟩)
    else none
termination_by cs.length

/-- A text up to its closing single quote. -/
def literalText (cs : List Char) : Reading (List Char) cs :=
  match cs with
  | [] => none
  | '\'' :: rest => some ([], ⟨rest, by simp⟩)
  | c :: rest =>
    if isTextChar c then do
      let (body, ⟨rest₁, h₁⟩) ← literalText rest
      return (c :: body, ⟨rest₁, by simp only [List.length_cons]; omega⟩)
    else none

/-! ### On several lines -/

/-- The rest of a text from a run of closing quotes on: up to two quotes before the closing three
belong to the text. -/
def closing (quote : Char) (cs : List Char) : Option (List Char × NoLonger cs) :=
  let run := cs.takeWhile (· == quote)
  if 3 ≤ run.length ∧ run.length ≤ 5 then
    some (run.drop 3, ⟨cs.dropWhile (· == quote), Token.length_dropWhile_le _ _⟩)
  else none

/-- Blanks and line ends. -/
def skipLines (cs : List Char) : NoLonger cs :=
  match cs with
  | [] => .all _
  | c :: rest =>
    if isBlankChar c || c == '\n' then
      ((skipLines rest).behind c).noLonger
    else
      match c, rest with
      | '\r', '\n' :: rest' => (((skipLines rest').behind '\n').noLonger.behind '\r').noLonger
      | _, _ => .all _
termination_by cs.length

/-- A line end after blanks, with all blanks and line ends that follow it. -/
def continuation (cs : List Char) : Option (Shorter cs) := do
  let ⟨rest, h⟩ := skipBlanks cs
  let ⟨rest₁, h₁⟩ ← lineEnd? rest
  let ⟨rest₂, h₂⟩ := skipLines rest₁
  return ⟨rest₂, length_lt_between h h₁ h₂⟩

/-- A text up to its three closing quotes; `escapes` tells whether a backslash is special. A backslash at
the end of a line leaves out the line end and all blanks after it. -/
def longText (quote : Char) (escapes : Bool) (cs : List Char) : Reading (List Char) cs :=
  match cs with
  | [] => none
  | c :: rest =>
    if c = quote then
      match closing quote (c :: rest) with
      | some (extra, ⟨rest', h⟩) =>
        if hl : rest'.length < (c :: rest).length then some (extra, ⟨rest', hl⟩) else none
      | none =>
        if 3 ≤ ((c :: rest).takeWhile (· == quote)).length then none
        else do
          let (body, ⟨rest₁, h₁⟩) ← longText quote escapes rest
          return (c :: body, ⟨rest₁, by simp only [List.length_cons]; omega⟩)
    else if escapes && c == '\\' then
      match continuation rest with
      | some ⟨rest₁, h₁⟩ => do
        let (body, ⟨rest₂, h₂⟩) ← longText quote escapes rest₁
        return (body, ⟨rest₂, by simp only [List.length_cons]; omega⟩)
      | none => do
        let (e, ⟨rest₁, h₁⟩) ← escape rest
        let (body, ⟨rest₂, h₂⟩) ← longText quote escapes rest₁
        return (e :: body, ⟨rest₂, by simp only [List.length_cons]; omega⟩)
    else
      match lineEnd? (c :: rest) with
      | some ⟨rest₁, h₁⟩ => do
        let (body, ⟨rest₂, h₂⟩) ← longText quote escapes rest₁
        return ('\n' :: body, ⟨rest₂, by omega⟩)
      | none =>
        if isTextChar c then do
          let (body, ⟨rest₁, h₁⟩) ← longText quote escapes rest
          return (c :: body, ⟨rest₁, by simp only [List.length_cons]; omega⟩)
        else none
termination_by cs.length
decreasing_by
  · exact Nat.lt_succ_self _
  · exact Nat.lt_succ_of_lt h₁
  · exact Nat.lt_succ_of_lt h₁
  · exact h₁
  · exact Nat.lt_succ_self _

/-- A text on several lines, its opening quotes taken away. A line end right after them is left out. -/
def longTextFrom (quote : Char) (escapes : Bool) (cs : List Char) : Reading (List Char) cs :=
  match lineEnd? cs with
  | some ⟨rest, h⟩ => do
    let (body, ⟨rest', h'⟩) ← longText quote escapes rest
    return (body, ⟨rest', by omega⟩)
  | none => longText quote escapes cs

/-- A text of any kind. -/
def quotedText (cs : List Char) : Reading String cs :=
  match cs with
  | '"' :: '"' :: '"' :: rest => do
    let (t, ⟨rest', h⟩) ← longTextFrom '"' true rest
    return (String.ofList t, ⟨rest', by simp only [List.length_cons]; omega⟩)
  | '"' :: rest => do
    let (t, ⟨rest', h⟩) ← basicText rest
    return (String.ofList t, ⟨rest', by simp only [List.length_cons]; omega⟩)
  | '\'' :: '\'' :: '\'' :: rest => do
    let (t, ⟨rest', h⟩) ← longTextFrom '\'' false rest
    return (String.ofList t, ⟨rest', by simp only [List.length_cons]; omega⟩)
  | '\'' :: rest => do
    let (t, ⟨rest', h⟩) ← literalText rest
    return (String.ofList t, ⟨rest', by simp only [List.length_cons]; omega⟩)
  | _ => none

end LayerCheck.Toml
