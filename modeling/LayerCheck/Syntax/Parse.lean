import LayerCheck.Syntax.Tree
import LayerCheck.Token.Rest

/-! Reading a text as a tree. Statements end at a newline, a semicolon or a closing brace; a statement
that begins with a name and a colon declares a layer annotation, whose text runs to the end of the
line and is kept as it stands. Operators are read by precedence: `binary` extends what it has read so
far as long as the next operator binds tighter than the limit it was given.

Each reader returns what is left of the lexemes together with a bound on its length, which is what
makes the recursion end. -/
namespace LayerCheck

/-- What a reader was looking for. -/
inductive Expected where
  | expression
  | endOfStatement
  | layerName
  | identifier
  | mark (p : Punct)
deriving DecidableEq, Repr

def Expected.describe : Expected → String
  | expression => "expression"
  | endOfStatement => "end of statement"
  | layerName => "layer name"
  | identifier => "identifier"
  | mark p => "'" ++ p.spelling ++ "'"

inductive SyntaxError.Cause where
  | expected (what : Expected) (found : Token)
  | missingText (name layer : String)
deriving DecidableEq, Repr

/-- Why a text is not a program, and where. -/
structure SyntaxError where
  cause : SyntaxError.Cause
  loc : Location
deriving DecidableEq, Repr

namespace SyntaxError

def message (e : SyntaxError) : String :=
  match e.cause with
  | .expected what found => s!"expected {what.describe}, found {found.describe}"
  | .missingText name layer => s!"missing annotation text for '{name}' in layer '{layer}'"

def render (e : SyntaxError) : String := s!"{e.loc.render}: Syntax error: {e.message}"

end SyntaxError

namespace Parse

variable (src : Source)

def peek : List Lexeme → Token
  | [] => .eof
  | t :: _ => t.token

/-- The place of the next lexeme, or of the end of the text. -/
def here : List Lexeme → Location
  | [] => src.locate src.size
  | t :: _ => src.locate t.start

def unexpected (what : Expected) (ts : List Lexeme) : SyntaxError := ⟨.expected what (peek ts), here src ts⟩

def skip (p : Token → Bool) (ts : List Lexeme) : NoLonger ts :=
  ⟨ts.dropWhile (p ·.token), Token.length_dropWhile_le _ _⟩

def skipNewlines (ts : List Lexeme) : NoLonger ts := skip (· == .newline) ts

def isSeparator (t : Token) : Bool := t == .newline || t == .punct .semi

def expect (p : Punct) (ts : List Lexeme) : Except SyntaxError (Shorter ts) :=
  match ts with
  | t :: rest =>
    if t.token = .punct p then .ok ⟨rest, by simp⟩ else .error (unexpected src (.mark p) (t :: rest))
  | [] => .error (unexpected src (.mark p) [])

def nameLeaf (ts : List Lexeme) : Except SyntaxError (Tree × Shorter ts) :=
  match ts with
  | ⟨.ident name, start, _⟩ :: rest => .ok (.leaf .name (src.locate start) name, ⟨rest, by simp⟩)
  | ts => .error (unexpected src .identifier ts)

def identNode (name : String) (loc : Location) : Tree := .node .ident loc [.leaf .name loc name]

/-! ### Expressions -/

mutual

/-- An expression whose operators all bind tighter than `limit`. -/
def expression (limit : Nat) (ts : List Lexeme) : Except SyntaxError (Tree × Shorter ts) := do
  let (lhs, ⟨rest, h⟩) ← operand ts
  let (e, ⟨rest', h'⟩) ← binary lhs limit rest
  return (e, ⟨rest', by omega⟩)
termination_by 5 * ts.length + 3

/-- Extends `lhs` by every following operator that binds tighter than `limit`. -/
def binary (lhs : Tree) (limit : Nat) (ts : List Lexeme) : Except SyntaxError (Tree × NoLonger ts) :=
  match ts with
  | ⟨.op op, start, stop⟩ :: rest =>
    if limit < op.precedence then do
      let ⟨rest₁, h₁⟩ := skipNewlines rest
      let (rhs, ⟨rest₂, h₂⟩) ← expression op.precedence rest₁
      let sign := Tree.leaf .operator (src.locate start) op.symbol
      let (e, ⟨rest₃, h₃⟩) ← binary (.node .binOp lhs.loc [lhs, sign, rhs]) limit rest₂
      return (e, ⟨rest₃, by simp only [List.length_cons]; omega⟩)
    else return (lhs, .all _)
  | ts => return (lhs, .all ts)
termination_by 5 * ts.length + 0

/-- A signed or negated operand, a literal, a name, a call, or an expression in parentheses. -/
def operand (ts : List Lexeme) : Except SyntaxError (Tree × Shorter ts) :=
  match ts with
  | ⟨.bang, start, _⟩ :: rest => do
    let (e, ⟨rest', h⟩) ← operand rest
    let loc := src.locate start
    return (.node .unaryOp loc [.leaf .operator loc "!", e], ⟨rest', by simp only [List.length_cons]; omega⟩)
  | ⟨.op .sub, start, _⟩ :: rest => do
    let (e, ⟨rest', h⟩) ← operand rest
    let loc := src.locate start
    return (.node .unaryOp loc [.leaf .operator loc "-", e], ⟨rest', by simp only [List.length_cons]; omega⟩)
  | ⟨.int digits, start, _⟩ :: rest =>
    let loc := src.locate start
    return (.node .num loc [.leaf .int loc digits], ⟨rest, by simp⟩)
  | ⟨.keyword .trueKw, start, _⟩ :: rest => return (.node .trueLit (src.locate start) [], ⟨rest, by simp⟩)
  | ⟨.keyword .falseKw, start, _⟩ :: rest => return (.node .falseLit (src.locate start) [], ⟨rest, by simp⟩)
  | ⟨.ident name, start, _⟩ :: rest => do
    let (e, ⟨rest', h⟩) ← afterName name (src.locate start) rest
    return (e, ⟨rest', by simp only [List.length_cons]; omega⟩)
  | ⟨.punct .lparen, _, _⟩ :: rest => do
    let ⟨rest₁, h₁⟩ := skipNewlines rest
    let (e, ⟨rest₂, h₂⟩) ← expression 0 rest₁
    let ⟨rest₃, h₃⟩ := skipNewlines rest₂
    let ⟨rest₄, h₄⟩ ← expect src .rparen rest₃
    return (e, ⟨rest₄, by simp only [List.length_cons]; omega⟩)
  | ts => .error (unexpected src .expression ts)
termination_by 5 * ts.length + 2

/-- A name already read: a call when an argument list follows, else a plain reference. -/
def afterName (name : String) (loc : Location) (ts : List Lexeme) : Except SyntaxError (Tree × NoLonger ts) :=
  match ts with
  | ⟨.punct .lparen, _, _⟩ :: rest => do
    let ⟨rest₁, h₁⟩ := skipNewlines rest
    let (args, ⟨rest₂, h₂⟩) ←
      if peek rest₁ = .punct .rparen then
        (pure ([], .all rest₁) : Except SyntaxError (List Tree × NoLonger rest₁))
      else arguments rest₁
    let ⟨rest₃, h₃⟩ ← expect src .rparen rest₂
    return (.node .funCall loc (.leaf .name loc name :: args),
      ⟨rest₃, by simp only [List.length_cons]; omega⟩)
  | ts => return (identNode name loc, .all ts)
termination_by 5 * ts.length + 1

/-- One or more arguments separated by commas. -/
def arguments (ts : List Lexeme) : Except SyntaxError (List Tree × NoLonger ts) := do
  let (e, ⟨rest₁, h₁⟩) ← expression 0 ts
  let ⟨rest₂, h₂⟩ := skipNewlines rest₁
  match rest₂, h₂ with
  | ⟨.punct .comma, _, _⟩ :: rest₃, h₂ => do
    let ⟨rest₄, h₄⟩ := skipNewlines rest₃
    let (es, ⟨rest₅, h₅⟩) ← arguments rest₄
    return (e :: es, ⟨rest₅, by simp only [List.length_cons] at h₂; omega⟩)
  | rest₂, h₂ => return ([e], ⟨rest₂, by omega⟩)
termination_by 5 * ts.length + 4
decreasing_by
  · omega
  · simp only [List.length_cons] at h₂; omega

end

/-! ### Statements -/

/-- One or more parameter names separated by commas. -/
def nameList (ts : List Lexeme) : Except SyntaxError (List Tree × NoLonger ts) := do
  let (name, ⟨rest, h⟩) ← nameLeaf src ts
  match rest, h with
  | ⟨.punct .comma, _, _⟩ :: rest', h => do
    let (names, ⟨rest'', h''⟩) ← nameList rest'
    return (name :: names, ⟨rest'', by simp only [List.length_cons] at h; omega⟩)
  | rest, h => return ([name], ⟨rest, by omega⟩)
termination_by ts.length
decreasing_by simp only [List.length_cons] at h; omega

/-- The rest of `name : layer : text` after the first colon; the text runs to the end of the line. -/
def declaration (name : String) (loc : Location) (ts : List Lexeme) :
    Except SyntaxError (Tree × Shorter ts) :=
  match ts with
  | ⟨.ident layer, start, _⟩ :: rest => do
    let ⟨rest₁, h₁⟩ ← expect src .colon rest
    if peek rest₁ = .newline ∨ peek rest₁ = .eof then
      .error ⟨.missingText name layer, here src rest₁⟩
    else
      let text := src.lineFrom (match rest₁ with | [] => src.size | t :: _ => t.start)
      let parts := [identNode name loc, .leaf .layerName (src.locate start) layer,
        .leaf .annotationText (here src rest₁) text]
      return (.node .layer loc parts, ⟨nextLine rest₁, by
        have : (nextLine rest₁).length ≤ rest₁.length := Token.length_dropWhile_le _ _
        simp only [List.length_cons]; omega⟩)
  | ts => .error (unexpected src .layerName ts)

/-- Where a list of statements ends: at the end of the text, or at the brace that closes a block. -/
def closes (inBlock : Bool) (t : Token) : Bool := if inBlock then t == .punct .rbrace else t == .eof

mutual

def statements (inBlock : Bool) (ts : List Lexeme) : Except SyntaxError (List Tree × NoLonger ts) := do
  let ⟨rest₁, h₁⟩ := skip isSeparator ts
  if closes inBlock (peek rest₁) then return ([], ⟨rest₁, h₁⟩)
  else if peek rest₁ = .eof then .error (unexpected src (.mark .rbrace) rest₁)
  else
    let (s, ⟨rest₂, h₂⟩) ← statement rest₁
    let next := peek rest₂
    if isSeparator next || closes inBlock next || next == .punct .rbrace then
      let (ss, ⟨rest₃, h₃⟩) ← statements inBlock rest₂
      return (s :: ss, ⟨rest₃, by omega⟩)
    else .error (unexpected src .endOfStatement rest₂)
termination_by 5 * ts.length + 3

def block (ts : List Lexeme) : Except SyntaxError (Tree × Shorter ts) := do
  let ⟨rest₁, h₁⟩ ← expect src .lbrace ts
  let (ss, ⟨rest₂, h₂⟩) ← statements true rest₁
  let ⟨rest₃, h₃⟩ ← expect src .rbrace rest₂
  return (.node .block (here src ts) ss, ⟨rest₃, by omega⟩)
termination_by 5 * ts.length + 0

/-- The rest of a conditional after `if`. -/
def conditional (loc : Location) (ts : List Lexeme) : Except SyntaxError (Tree × Shorter ts) := do
  let (condition, ⟨rest₁, h₁⟩) ← expression src 0 ts
  let (thenBlock, ⟨rest₂, h₂⟩) ← block rest₁
  match rest₂, h₂ with
  | ⟨.keyword .elseKw, _, _⟩ :: ⟨.keyword .ifKw, start, _⟩ :: rest₃, h₂ => do
    let (branch, ⟨rest₄, h₄⟩) ← conditional (src.locate start) rest₃
    return (.node .ifStmt loc [condition, thenBlock, branch],
      ⟨rest₄, by simp only [List.length_cons] at h₂; omega⟩)
  | ⟨.keyword .elseKw, _, _⟩ :: rest₃, h₂ => do
    let (branch, ⟨rest₄, h₄⟩) ← block rest₃
    return (.node .ifStmt loc [condition, thenBlock, branch],
      ⟨rest₄, by simp only [List.length_cons] at h₂; omega⟩)
  | rest₂, h₂ => return (.node .ifStmt loc [condition, thenBlock], ⟨rest₂, by omega⟩)
termination_by 5 * ts.length + 1
decreasing_by
  · omega
  · simp only [List.length_cons] at h₂; omega
  · simp only [List.length_cons] at h₂; omega

def statement (ts : List Lexeme) : Except SyntaxError (Tree × Shorter ts) :=
  match ts with
  | ⟨.keyword .defKw, start, _⟩ :: rest => do
    let (name, ⟨rest₁, h₁⟩) ← nameLeaf src rest
    let ⟨rest₂, h₂⟩ ← expect src .lparen rest₁
    let (params, ⟨rest₃, h₃⟩) ←
      if peek rest₂ = .punct .rparen then
        (pure ([], .all rest₂) : Except SyntaxError (List Tree × NoLonger rest₂))
      else nameList src rest₂
    let ⟨rest₄, h₄⟩ ← expect src .rparen rest₃
    let (body, ⟨rest₅, h₅⟩) ← block rest₄
    return (.node .funDef (src.locate start) (name :: params ++ [body]),
      ⟨rest₅, by simp only [List.length_cons]; omega⟩)
  | ⟨.keyword .ifKw, start, _⟩ :: rest => do
    let (s, ⟨rest', h⟩) ← conditional (src.locate start) rest
    return (s, ⟨rest', by simp only [List.length_cons]; omega⟩)
  | ⟨.keyword .whileKw, start, _⟩ :: rest => do
    let (condition, ⟨rest₁, h₁⟩) ← expression src 0 rest
    let (body, ⟨rest₂, h₂⟩) ← block rest₁
    return (.node .whileStmt (src.locate start) [condition, body],
      ⟨rest₂, by simp only [List.length_cons]; omega⟩)
  | ⟨.keyword .returnKw, start, _⟩ :: rest =>
    let next := peek rest
    if isSeparator next || next == .punct .rbrace || next == .eof then
      return (.node .returnStmt (src.locate start) [], ⟨rest, by simp⟩)
    else do
      let (value, ⟨rest', h⟩) ← expression src 0 rest
      return (.node .returnStmt (src.locate start) [value], ⟨rest', by simp only [List.length_cons]; omega⟩)
  | ⟨.keyword .breakKw, start, _⟩ :: rest => return (.node .breakStmt (src.locate start) [], ⟨rest, by simp⟩)
  | ⟨.keyword .continueKw, start, _⟩ :: rest =>
    return (.node .continueStmt (src.locate start) [], ⟨rest, by simp⟩)
  | ⟨.ident name, start, _⟩ :: ⟨.punct .colon, _, _⟩ :: rest => do
    let (s, ⟨rest', h⟩) ← declaration src name (src.locate start) rest
    return (s, ⟨rest', by simp only [List.length_cons]; omega⟩)
  | ⟨.ident name, start, _⟩ :: ⟨.punct .assign, _, _⟩ :: rest => do
    let (value, ⟨rest', h⟩) ← expression src 0 rest
    let loc := src.locate start
    return (.node .assign loc [identNode name loc, value], ⟨rest', by simp only [List.length_cons]; omega⟩)
  | ts => do
    let (e, ⟨rest, h⟩) ← expression src 0 ts
    return (.node .exprStmt (here src ts) [e], ⟨rest, h⟩)
termination_by 5 * ts.length + 2

end

/-- The tree of a program, or the first error in it. -/
def program (src : Source) : Except SyntaxError Tree := do
  let (ss, _) ← statements src false src.lexemes
  return .node .program ⟨1, 1⟩ ss

end Parse

/-- Reads a program text. -/
def Tree.parse (text : String) : Except SyntaxError Tree := Parse.program (Source.ofString text)

end LayerCheck
