/-! Patterns for file names. A question mark stands for any character, a star for any text, brackets for
one of the characters in them, and a double star, which must be a whole part of a path, for any
folders on the way. -/
namespace LayerCheck

/-- A character, or all from one to another. -/
inductive CharChoice where
  | single (c : Char)
  | range (first last : Char)
deriving DecidableEq, Repr

def CharChoice.has (c : Char) : CharChoice → Bool
  | single d => c == d
  | range first last => first ≤ c && c ≤ last

inductive Wildcard where
  | char (c : Char)
  | anyChar
  | anyText
  | anyFolders
  | oneOf (choices : List CharChoice)
  | noneOf (choices : List CharChoice)
deriving DecidableEq, Repr

namespace Wildcard

inductive Reason where
  | tooManyStars
  | doubleStarInName
  | unclosedBracket
deriving DecidableEq, Repr

/-- Why a text is no pattern, and at which character. -/
structure Error where
  position : Nat
  reason : Reason
deriving DecidableEq, Repr

def Error.message (e : Error) : String :=
  let reason := match e.reason with
    | .tooManyStars => "wildcards are either regular `*` or recursive `**`"
    | .doubleStarInName => "recursive wildcards must form a single path component"
    | .unclosedBracket => "invalid range pattern"
  s!"Pattern syntax error near position {e.position}: {reason}"

/-! ### Reading -/

/-- The choices in brackets. -/
def choices : List Char → List CharChoice
  | first :: '-' :: last :: cs => .range first last :: choices cs
  | c :: cs => .single c :: choices cs
  | [] => []

/-- The rest of a pattern after an opening bracket: the choices, and what follows the closing bracket.
There is at least one choice, which may itself be a closing bracket. -/
def brackets : List Char → Option (Wildcard × List Char)
  | '!' :: c :: cs =>
    if cs.contains ']' then
      some (.noneOf (choices (c :: cs.takeWhile (· != ']'))), (cs.dropWhile (· != ']')).drop 1)
    else none
  | ['!'] => none
  | c :: cs =>
    if cs.contains ']' then
      some (.oneOf (choices (c :: cs.takeWhile (· != ']'))), (cs.dropWhile (· != ']')).drop 1)
    else none
  | [] => none

/-- Reads a pattern from a position on; `fresh` tells whether a part of the path begins there. The number
of characters left bounds the steps. -/
def parseFrom (fuel position : Nat) (fresh : Bool) (cs : List Char) : Except Error (List Wildcard) :=
  match fuel with
  | 0 => .ok []
  | fuel + 1 =>
    match cs with
    | [] => .ok []
    | '?' :: rest => do return .anyChar :: (← parseFrom fuel (position + 1) false rest)
    | '*' :: rest =>
      let run := 1 + (rest.takeWhile (· == '*')).length
      let rest := rest.dropWhile (· == '*')
      if 2 < run then .error ⟨position + 2, .tooManyStars⟩
      else if run = 1 then do return .anyText :: (← parseFrom fuel (position + 1) false rest)
      else if !fresh then .error ⟨position - 1, .doubleStarInName⟩
      else match rest with
        | [] => .ok [.anyFolders]
        | '/' :: rest => do return .anyFolders :: (← parseFrom fuel (position + 3) true rest)
        | _ :: _ => .error ⟨position + 2, .doubleStarInName⟩
    | '[' :: rest =>
      match brackets rest with
      | none => .error ⟨position, .unclosedBracket⟩
      | some (w, rest') => do
        return w :: (← parseFrom fuel (position + 1 + rest.length - rest'.length) false rest')
    | c :: rest => do return .char c :: (← parseFrom fuel (position + 1) (c == '/') rest)

def parse (cs : List Char) : Except Error (List Wildcard) := parseFrom cs.length 0 true cs

/-! ### Matching -/

/-- All ends of a text, the longest first. -/
def ends : List Char → List (List Char)
  | [] => [[]]
  | c :: cs => (c :: cs) :: ends cs

/-- The texts that begin with a character of some kind, without it. -/
def dropOne (kind : Char → Bool) (rests : List (List Char)) : List (List Char) :=
  rests.filterMap fun
    | [] => none
    | c :: cs => if kind c then some cs else none

/-- What may be left of a name after one more wildcard, given what may be left before it. The texts are
ends of one name, the longest first, so a star leaves the ends of the first of them. -/
def leave : Wildcard → List (List Char) → List (List Char)
  | .anyText, [] => []
  | .anyText, longest :: _ => ends longest
  | .anyFolders, rests => rests
  | .char d, rests => dropOne (· == d) rests
  | .anyChar, rests => dropOne (fun _ => true) rests
  | .oneOf choices, rests => dropOne (fun c => choices.any (·.has c)) rests
  | .noneOf choices, rests => dropOne (fun c => !choices.any (·.has c)) rests

/-- Whether a pattern fits a whole name. -/
def fits (ws : List Wildcard) (name : List Char) : Bool :=
  (ws.foldl (fun rests w => leave w rests) [name]).contains []

/-- The name that a pattern without wildcards stands for. -/
def literal? : List Wildcard → Option (List Char)
  | [] => some []
  | .char c :: ws => (literal? ws).map (c :: ·)
  | _ :: _ => none

end Wildcard

end LayerCheck
