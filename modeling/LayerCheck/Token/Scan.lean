import LayerCheck.Text.Location
import LayerCheck.Text.Blank
import LayerCheck.Token.Basic

/-! Reading a text as lexemes. Blanks and comments separate lexemes and are dropped; everything else
is covered by exactly one lexeme, and the longest possible one is taken. -/
namespace LayerCheck

def isIdentStart (c : Char) : Bool := c == '_' || c.isAlpha

def isIdentRest (c : Char) : Bool := c == '_' || c.isAlphanum

/-- Blanks that separate tokens; a newline is not one of them. -/
def isGap (c : Char) : Bool := c == ' ' || c == '\t' || c == '\r'

namespace Token

/-- A keyword, or else an identifier. -/
def ofWord (word : String) : Token :=
  match Keyword.ofSpelling? word with
  | some k => keyword k
  | none => ident word

/-- The mark or operator that starts with `c`, and the text after it. -/
def readMark (c : Char) (cs : List Char) : Token × List Char :=
  match c, cs with
  | '\n', _ => (newline, cs)
  | '(', _ => (punct .lparen, cs)
  | ')', _ => (punct .rparen, cs)
  | '{', _ => (punct .lbrace, cs)
  | '}', _ => (punct .rbrace, cs)
  | ',', _ => (punct .comma, cs)
  | ':', _ => (punct .colon, cs)
  | ';', _ => (punct .semi, cs)
  | '+', _ => (op .add, cs)
  | '*', _ => (op .mul, cs)
  | '-', '>' :: rest => (punct .arrow, rest)
  | '-', _ => (op .sub, cs)
  | '=', '=' :: rest => (op .eq, rest)
  | '=', _ => (punct .assign, cs)
  | '!', '=' :: rest => (op .ne, rest)
  | '!', _ => (bang, cs)
  | '<', '=' :: rest => (op .le, rest)
  | '<', _ => (op .lt, cs)
  | '>', '=' :: rest => (op .ge, rest)
  | '>', _ => (op .gt, cs)
  | '&', '&' :: rest => (op .and, rest)
  | '|', '|' :: rest => (op .or, rest)
  | _, _ => (unknown c, cs)

/-- The token that starts with `c`, and the text after it. -/
def read (c : Char) (cs : List Char) : Token × List Char :=
  if isIdentStart c then
    (ofWord (String.ofList (c :: cs.takeWhile isIdentRest)), cs.dropWhile isIdentRest)
  else if c.isDigit then
    (int (String.ofList (c :: cs.takeWhile Char.isDigit)), cs.dropWhile Char.isDigit)
  else
    readMark c cs

theorem length_dropWhile_le {α : Type} (p : α → Bool) (xs : List α) : (xs.dropWhile p).length ≤ xs.length :=
  (List.dropWhile_sublist p).length_le

theorem readMark_length (c : Char) (cs : List Char) : (readMark c cs).2.length ≤ cs.length := by
  unfold readMark
  split <;> simp

theorem read_length (c : Char) (cs : List Char) : (read c cs).2.length ≤ cs.length := by
  unfold read
  split
  · exact length_dropWhile_le _ _
  · split
    · exact length_dropWhile_le _ _
    · exact readMark_length c cs

end Token

/-- The lexemes of a text that begins at offset `pos`. -/
def scanFrom (pos : Nat) : List Char → List Lexeme
  | [] => []
  | c :: cs =>
    if isGap c then scanFrom (pos + c.utf8Size) cs
    else if c = '#' then
      let comment := cs.takeWhile (· != '\n')
      scanFrom (pos + c.utf8Size + byteLength comment) (cs.dropWhile (· != '\n'))
    else
      let token := (Token.read c cs).1
      let stop := pos + token.spelling.utf8ByteSize
      ⟨token, pos, stop⟩ :: scanFrom stop (Token.read c cs).2
termination_by cs => cs.length
decreasing_by
  · simp
  · have := Token.length_dropWhile_le (· != '\n') cs
    simp only [List.length_cons]
    omega
  · have := Token.read_length c cs
    simp only [List.length_cons]
    omega

/-- A text with the index of its lines. -/
structure Source where
  chars : List Char
  index : LineIndex

namespace Source

def ofChars (cs : List Char) : Source := ⟨cs, LineIndex.ofChars cs⟩

def ofString (text : String) : Source := ofChars text.toList

def size (src : Source) : Nat := byteLength src.chars

def locate (src : Source) (offset : Nat) : Location := src.index.locate offset

def lexemes (src : Source) : List Lexeme := scanFrom 0 src.chars

/-- The part of a text that starts at a byte offset. -/
def dropBytes : Nat → List Char → List Char
  | 0, cs => cs
  | _ + 1, [] => []
  | n + 1, c :: cs => dropBytes (n + 1 - c.utf8Size) cs

/-- The text from an offset to the end of its line, without blanks at either end. -/
def lineFrom (src : Source) (offset : Nat) : String :=
  String.ofList (Text.trim ((dropBytes offset src.chars).takeWhile (· != '\n')))

end Source

/-- The lexemes of the next lines: those left after the rest of the current line. -/
def nextLine (ts : List Lexeme) : List Lexeme := ts.dropWhile (·.token != .newline)

end LayerCheck
