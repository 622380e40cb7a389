import LayerCheck.Fault
import LayerCheck.Number.Decimal
import LayerCheck.Term.Basic
import LayerCheck.Token.Rest

/-! Reading a term from tokens. A variable is an identifier, with or without a `$` before it. A minus
sign in front of a literal is folded into it, so that negative literals can be written. -/
namespace LayerCheck

/-- What a reader of terms and types was looking for. -/
inductive Wanted where
  | token (t : Token)
  | endOfType
  | base
  | term
deriving DecidableEq, Repr

def Wanted.describe : Wanted → String
  | token t => t.describe
  | endOfType => "end of type"
  | base => "'Int' or 'Bool'"
  | term => "a term"

inductive ReadError where
  | expected (what : Wanted) (found : Token)
  | expectedName (found : Token)
  | outOfRange (digits : String)
deriving DecidableEq, Repr

namespace ReadError

/-- The message about a text in which the error was found. -/
def message (text : String) : ReadError → String
  | expected what found => s!"expected {what.describe} in '{text}', found {found.describe}"
  | expectedName found => s!"expected a variable name in '{text}', found {found.describe}"
  | outOfRange digits => s!"integer literal {digits} out of range"

def fault (text : String) (e : ReadError) : Fault := .malformed (e.message text)

end ReadError

/-- The tokens of an annotation text. -/
def tokensOf (text : String) : List Token := (Source.ofString text).lexemes.map (·.token)

namespace Reader

abbrev Result (α : Type) (ts : List Token) := Except ReadError (α × Shorter ts)

def next : List Token → Token
  | [] => .eof
  | t :: _ => t

def expect (t : Token) (ts : List Token) : Except ReadError (Shorter ts) :=
  match ts with
  | u :: rest => if u = t then .ok ⟨rest, by simp⟩ else .error (.expected (.token t) u)
  | [] => .error (.expected (.token t) .eof)

/-- The end of a text, or of its first line. -/
def expectEnd (ts : List Token) : Except ReadError Unit :=
  if next ts = .eof ∨ next ts = .newline then .ok () else .error (.expected .endOfType (next ts))

def variableName (ts : List Token) : Result String ts :=
  match ts with
  | .unknown '$' :: .ident name :: rest => .ok ("$" ++ name, ⟨rest, by simp only [List.length_cons]; omega⟩)
  | .unknown '$' :: rest => .error (.expectedName (next rest))
  | .ident name :: rest => .ok (name, ⟨rest, by simp⟩)
  | ts => .error (.expectedName (next ts))

/-- The negation of a term, folded into a literal. -/
def negated : Term → Term
  | .int value => .int (-value)
  | t => .unary .neg t

mutual

/-- A term whose operators have at least the given precedence. -/
def term (least : Nat) (ts : List Token) : Result Term ts := do
  let (lhs, ⟨rest₁, h₁⟩) ← operand ts
  let (t, ⟨rest₂, h₂⟩) ← extend lhs least rest₁
  return (t, ⟨rest₂, by omega⟩)
termination_by 3 * ts.length + 2

/-- Extends `lhs` by every following operator of at least the given precedence. -/
def extend (lhs : Term) (least : Nat) (ts : List Token) : Except ReadError (Term × NoLonger ts) :=
  match ts with
  | .op op :: rest =>
    if op.precedence < least then return (lhs, .all _)
    else do
      let (rhs, ⟨rest₁, h₁⟩) ← term (op.precedence + 1) rest
      let (t, ⟨rest₂, h₂⟩) ← extend (.binary op lhs rhs) least rest₁
      return (t, ⟨rest₂, by simp only [List.length_cons]; omega⟩)
  | ts => return (lhs, .all ts)
termination_by 3 * ts.length

def operand (ts : List Token) : Result Term ts :=
  match ts with
  | .bang :: rest => do
    let (t, ⟨rest', h⟩) ← operand rest
    return (.not t, ⟨rest', by simp only [List.length_cons]; omega⟩)
  | .op .sub :: rest => do
    let (t, ⟨rest', h⟩) ← operand rest
    return (negated t, ⟨rest', by simp only [List.length_cons]; omega⟩)
  | .int digits :: rest =>
    match Decimal.int64? digits with
    | some value => return (.int value, ⟨rest, by simp⟩)
    | none => .error (.outOfRange digits)
  | .keyword .trueKw :: rest => return (.bool true, ⟨rest, by simp⟩)
  | .keyword .falseKw :: rest => return (.bool false, ⟨rest, by simp⟩)
  | .punct .lparen :: rest => do
    let (t, ⟨rest₁, h₁⟩) ← term 0 rest
    let ⟨rest₂, h₂⟩ ← expect (.punct .rparen) rest₁
    return (t, ⟨rest₂, by simp only [List.length_cons]; omega⟩)
  | .ident name :: rest => return (.var name, ⟨rest, by simp⟩)
  | .unknown '$' :: rest => do
    let (name, rest') ← variableName (.unknown '$' :: rest)
    return (.var name, rest')
  | ts => .error (.expected .term (next ts))
termination_by 3 * ts.length + 1

end

end Reader

/-- Reads a predicate that fills a text, or its first line. -/
def Term.parse (text : String) : Except Fault Term :=
  let result := do
    let (t, rest) ← Reader.term 0 (tokensOf text)
    Reader.expectEnd rest.1
    return t
  result.mapError (ReadError.fault text)

end LayerCheck
