/-! Values of JSON and their text, one item to a line. -/
namespace LayerCheck

inductive JsonValue where
  | null
  | bool (value : Bool)
  | num (value : Nat)
  | str (value : String)
  | arr (items : List JsonValue)
  | obj (fields : List (String × JsonValue))
deriving Repr

namespace JsonValue

def hexDigit (n : Nat) : Char := (Nat.toDigits 16 n).headD '0'

/-- A character as it stands between quotes. -/
def escaped (c : Char) : List Char :=
  match c with
  | '"' => ['\\', '"']
  | '\\' => ['\\', '\\']
  | '\x08' => ['\\', 'b']
  | '\x0c' => ['\\', 'f']
  | '\n' => ['\\', 'n']
  | '\r' => ['\\', 'r']
  | '\t' => ['\\', 't']
  | c => if c.toNat < 32 then ['\\', 'u', '0', '0', hexDigit (c.toNat / 16), hexDigit (c.toNat % 16)] else [c]

def quoted (s : String) : String := "\"" ++ String.ofList (s.toList.flatMap escaped) ++ "\""

def newLine (depth : Nat) : String := "\n" ++ "".pushn ' ' (2 * depth)

mutual

/-- The text of a value at a depth. -/
def renderAt (depth : Nat) : JsonValue → String
  | null => "null"
  | bool value => if value then "true" else "false"
  | num value => toString value
  | str value => quoted value
  | arr [] => "[]"
  | arr (v :: vs) =>
    "[" ++ newLine (depth + 1) ++ renderAt (depth + 1) v ++ renderItems (depth + 1) vs ++ newLine depth ++ "]"
  | obj [] => "\x7b\x7d"
  | obj ((k, v) :: fields) =>
    "\x7b" ++ newLine (depth + 1) ++ quoted k ++ ": " ++ renderAt (depth + 1) v ++
      renderFields (depth + 1) fields ++ newLine depth ++ "\x7d"

def renderItems (depth : Nat) : List JsonValue → String
  | [] => ""
  | v :: vs => "," ++ newLine depth ++ renderAt depth v ++ renderItems depth vs

def renderFields (depth : Nat) : List (String × JsonValue) → String
  | [] => ""
  | (k, v) :: fields =>
    "," ++ newLine depth ++ quoted k ++ ": " ++ renderAt depth v ++ renderFields depth fields

end

def render (v : JsonValue) : String := renderAt 0 v

def strs (items : List String) : JsonValue := arr (items.map str)

end JsonValue

end LayerCheck
