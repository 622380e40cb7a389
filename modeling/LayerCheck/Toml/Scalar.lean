import LayerCheck.Number.Decimal
import LayerCheck.Toml.Value

/-! Numbers, truth values and times of TOML: the values written in one word. -/
namespace LayerCheck.Toml

/-- The characters that such a word consists of. -/
def isWordChar (c : Char) : Bool := c.isAlphanum || "+-_.:".toList.contains c

/-- The digits of a run in which single underscores may stand between digits. -/
def digitRun (ok : Char → Bool) : List Char → Option (List Char)
  | [] => none
  | [c] => if ok c then some [c] else none
  | c :: '_' :: cs => if ok c then (digitRun ok cs).map (c :: ·) else none
  | c :: cs => if ok c then (digitRun ok cs).map (c :: ·) else none

/-! ### Integers -/

/-- Takes a sign away, and tells whether it was a minus. -/
def splitSign : List Char → Bool × List Char
  | '-' :: cs => (true, cs)
  | '+' :: cs => (false, cs)
  | cs => (false, cs)

/-- Decimal digits without a needless zero in front. -/
def plainDigits (cs : List Char) : Option (List Char) := do
  let digits ← digitRun Char.isDigit cs
  if 1 < digits.length ∧ digits.head? = some '0' then none else some digits

def hexValue (c : Char) : Nat :=
  if c.isDigit then c.toNat - 48 else if c.isUpper then c.toNat - 55 else c.toNat - 87

def isHex (c : Char) : Bool := c.isDigit || 'a' ≤ c && c ≤ 'f' || 'A' ≤ c && c ≤ 'F'

/-- The number that digits stand for in a base. -/
def ofBase (base : Nat) (digits : List Char) : Nat := digits.foldl (fun n d => base * n + hexValue d) 0

def integer (cs : List Char) : Option Int := do
  let n : Int ← match cs with
    | '0' :: 'x' :: cs => (digitRun isHex cs).map fun ds => (ofBase 16 ds : Int)
    | '0' :: 'o' :: cs => (digitRun (fun c => '0' ≤ c && c ≤ '7') cs).map fun ds => (ofBase 8 ds : Int)
    | '0' :: 'b' :: cs => (digitRun (fun c => c == '0' || c == '1') cs).map fun ds => (ofBase 2 ds : Int)
    | cs =>
      let (negative, cs) := splitSign cs
      (plainDigits cs).map fun ds => if negative then -(Decimal.ofDigits ds : Int) else Decimal.ofDigits ds
  if fits64 n then some n else none

/-! ### Floats -/

/-- Whether digits times a power of ten exceed every double, after rounding. -/
def exceedsDouble (digits : List Char) (exponent : Int) : Bool :=
  let digits := digits.dropWhile (· == '0')
  let size := digits.length + exponent
  if digits.isEmpty || size < 309 then false
  else if 309 < size then true
  else
    let n := Decimal.ofDigits digits
    let least := Nat.pow 2 1024 - Nat.pow 2 970
    if 0 ≤ exponent then least ≤ n * Nat.pow 10 exponent.toNat else least * Nat.pow 10 (-exponent).toNat ≤ n

/-- The exponent that a text gives after its `e`. -/
def exponentOf : List Char → Option Int
  | [] => some 0
  | c :: cs =>
    if c == 'e' || c == 'E' then
      let (negative, cs) := splitSign cs
      (digitRun Char.isDigit cs).map fun ds =>
        if negative then -(Decimal.ofDigits ds : Int) else Decimal.ofDigits ds
    else none

/-- Whether a word is a float: a number with a fraction or an exponent, or a special one. A positive
number may not be too large for a double. -/
def isFloat (cs : List Char) : Bool :=
  let (negative, cs) := splitSign cs
  if cs = "inf".toList ∨ cs = "nan".toList then true
  else
    let isRunChar (c : Char) : Bool := c.isDigit || c == '_'
    let whole := plainDigits (cs.takeWhile isRunChar)
    let checked (whole fraction : List Char) (exponent : Int) : Bool :=
      negative || !exceedsDouble (whole ++ fraction) (exponent - fraction.length)
    match whole, cs.dropWhile isRunChar with
    | some whole, '.' :: rest =>
      match digitRun Char.isDigit (rest.takeWhile isRunChar), exponentOf (rest.dropWhile isRunChar) with
      | some fraction, some exponent => checked whole fraction exponent
      | _, _ => false
    | some whole, c :: rest =>
      match exponentOf (c :: rest) with
      | some exponent => checked whole [] exponent
      | none => false
    | _, _ => false

/-! ### Times -/

/-- A number of exactly `width` digits between two bounds. -/
def field (width lo hi : Nat) (cs : List Char) : Option Nat :=
  if cs.length = width ∧ cs.all Char.isDigit then
    let n := Decimal.ofDigits cs
    if lo ≤ n ∧ n ≤ hi then some n else none
  else none

def daysIn (year month : Nat) : Nat :=
  if month = 2 then if year % 4 = 0 ∧ (year % 100 ≠ 0 ∨ year % 400 = 0) then 29 else 28
  else if [4, 6, 9, 11].contains month then 30 else 31

/-- Whether a text is a date, such as `2020-02-29`. -/
def isDate (cs : List Char) : Bool :=
  match field 4 0 9999 (cs.take 4), field 2 1 12 ((cs.drop 5).take 2) with
  | some year, some month =>
    (cs.drop 4).head? == some '-' && (cs.drop 7).head? == some '-' &&
      (field 2 1 (daysIn year month) (cs.drop 8)).isSome
  | _, _ => false

/-- Whether a text is hours and minutes, such as `23:59`. -/
def isMinute (cs : List Char) : Bool :=
  (field 2 0 23 (cs.take 2)).isSome && (cs.drop 2).head? == some ':' && (field 2 0 59 (cs.drop 3)).isSome

/-- Whether a text is a time of day, with seconds and perhaps a fraction. -/
def isTimeOfDay (cs : List Char) : Bool :=
  isMinute (cs.take 5) && (cs.drop 5).head? == some ':' && (field 2 0 60 ((cs.drop 6).take 2)).isSome &&
    match cs.drop 8 with
    | [] => true
    | c :: fraction => c == '.' && !fraction.isEmpty && fraction.all Char.isDigit

/-- Whether a text is a time of day, perhaps with its distance from universal time. -/
def isOffsetTime (cs : List Char) : Bool :=
  let sign := cs.findIdx fun c => c == '+' || c == '-' || c == 'Z' || c == 'z'
  isTimeOfDay (cs.take sign) &&
    match cs.drop sign with
    | [] => true
    | c :: rest => if c == 'Z' || c == 'z' then rest.isEmpty else isMinute rest

/-- Whether a text is a date, a time of day, or both. -/
def isTime (cs : List Char) : Bool :=
  isTimeOfDay cs || isDate cs ||
    isDate (cs.take 10) && ((cs.drop 10).head?.any fun c => c == 'T' || c == 't' || c == ' ') &&
      isOffsetTime (cs.drop 11)

/-- The value of a word. -/
def ofWord (cs : List Char) : Option Toml :=
  if cs = "true".toList then some (.bool true)
  else if cs = "false".toList then some (.bool false)
  else if isTime cs then some .time
  else if isFloat cs then some .float
  else (integer cs).map .int

end LayerCheck.Toml
