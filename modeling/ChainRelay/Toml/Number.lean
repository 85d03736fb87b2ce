import ChainRelay.Toml.Scan
import ChainRelay.Toml.Value

/-!
TOML numbers, dates and times. Integers are 64 bits wide. Of a float only that it is one, and not
too large, is kept; of dates and times only that they are well formed.
-/

namespace ChainRelay.Toml

private def digitValue (c : Char) : Nat :=
  if isDigit c then c.toNat - '0'.toNat
  else if 'a' ≤ c then c.toNat - 'a'.toNat + 10
  else c.toNat - 'A'.toNat + 10

private def digitsValue (base : Nat) (ds : List Char) : Nat :=
  ds.foldl (fun n d => n * base + digitValue d) 0

/-- As `digitsValue`, but digits behind a number above the bound do not count any more. -/
private def boundedValue (bound base : Nat) (ds : List Char) : Nat :=
  ds.foldl (fun n d => if bound < n then n else n * base + digitValue d) 0

private def isHexDigit (c : Char) : Bool :=
  isDigit c || 'a' ≤ c && c ≤ 'f' || 'A' ≤ c && c ≤ 'F'

private def isOctalDigit (c : Char) : Bool := '0' ≤ c && c ≤ '7'

private def isBinaryDigit (c : Char) : Bool := c = '0' || c = '1'

def minInteger : Int := -0x8000000000000000

def maxInteger : Int := 0x7FFFFFFFFFFFFFFF

private def integerOf (n : Int) (rest : List Char) : Option (Value × List Char) :=
  if minInteger ≤ n ∧ n ≤ maxInteger then some (.integer n, rest) else none

def sign : List Char → Bool × List Char
  | '+' :: s => (false, s)
  | '-' :: s => (true, s)
  | s => (false, s)

/-- Decimal digits that do not start with a superfluous zero. -/
def decimalDigits : Scan (List Char)
  | '0' :: s => some (['0'], s)
  | s => digitGroups isDigit s

private def based (base : Nat) (isDigit : Char → Bool) (s : List Char) :
    Option (Value × List Char) := do
  let (ds, rest) ← digitGroups isDigit s
  integerOf (boundedValue maxInteger.toNat base ds) rest

def integer : Scan Value
  | '0' :: 'x' :: s => based 16 isHexDigit s
  | '0' :: 'o' :: s => based 8 isOctalDigit s
  | '0' :: 'b' :: s => based 2 isBinaryDigit s
  | s => do
    let (negative, s) := sign s
    let (ds, rest) ← decimalDigits s
    let n : Int := boundedValue minInteger.natAbs 10 ds
    integerOf (if negative then -n else n) rest

/-- The least number that rounds to infinity: half a step above the largest float. -/
private def infinityBound : Nat := 0x3FFFFFFFFFFFFF <<< 970

private def infinityDigits : Nat := 309

/-- Whether the number with these digits before and after its point, times a power of ten, is not
below the bound. The bound is whole, so what is behind the point of the product does not matter. -/
private def roundsToInfinity (whole part : List Char) (power : Int) : Bool :=
  let ds := (whole ++ part).dropWhile (· = '0')
  let size := ds.length + power - part.length
  if ds.isEmpty then false
  else if size ≠ infinityDigits then infinityDigits < size
  else
    let ds := ds.take infinityDigits ++ List.replicate (infinityDigits - ds.length) '0'
    infinityBound ≤ digitsValue 10 ds

private def fraction : Scan (List Char)
  | '.' :: s => digitGroups isDigit s
  | s => some ([], s)

/-- Digits of an exponent do not count behind a number above this one. -/
private def exponentBound : Nat := 65535

private def exponent : Scan (Option Int)
  | c :: s =>
    if c = 'e' || c = 'E' then do
      let (negative, s) := sign s
      let (ds, rest) ← digitGroups isDigit s
      let n : Int := boundedValue exponentBound 10 ds
      return (some (if negative then -n else n), rest)
    else some (none, c :: s)
  | [] => some (none, [])

private def special (s : List Char) : Option (Value × List Char) :=
  ((expect ['i', 'n', 'f'] s).or (expect ['n', 'a', 'n'] s)).map (Value.float, ·)

/-- A number with a fraction or an exponent, or a special one. Too large a positive number is
refused. -/
def float (s : List Char) : Option (Value × List Char) :=
  let (negative, unsigned) := sign s
  match decimalDigits unsigned with
  | none => special unsigned
  | some (whole, s) => do
    let (part, s) ← fraction s
    let (power, rest) ← exponent s
    if part.isEmpty && power.isNone then none
    else
      if !negative && roundsToInfinity whole part (power.getD 0) then none
      else some (.float, rest)

private def fixedDigits (n : Nat) (s : List Char) : Option (Nat × List Char) :=
  let ds := s.take n
  if ds.length = n && ds.all isDigit then some (digitsValue 10 ds, s.drop n) else none

def isLeapYear (year : Nat) : Bool := year % 4 == 0 && (year % 100 != 0 || year % 400 == 0)

def daysInMonth (year month : Nat) : Nat :=
  if month = 2 then if isLeapYear year then 29 else 28
  else if month = 4 ∨ month = 6 ∨ month = 9 ∨ month = 11 then 30
  else 31

private def date (s : List Char) : Option (List Char) := do
  let (year, s) ← fixedDigits 4 s
  let s ← expect ['-'] s
  let (month, s) ← fixedDigits 2 s
  let s ← expect ['-'] s
  let (day, s) ← fixedDigits 2 s
  if 1 ≤ month ∧ month ≤ 12 ∧ 1 ≤ day ∧ day ≤ daysInMonth year month then some s else none

private def hourAndMinute (s : List Char) : Option (List Char) := do
  let (hour, s) ← fixedDigits 2 s
  let s ← expect [':'] s
  let (minute, s) ← fixedDigits 2 s
  if hour ≤ 23 ∧ minute ≤ 59 then some s else none

private def secondFraction : List Char → List Char
  | '.' :: c :: s => if isDigit c then s.dropWhile isDigit else '.' :: c :: s
  | s => s

private def time (s : List Char) : Option (List Char) := do
  let s ← hourAndMinute s
  let s ← expect [':'] s
  let (second, s) ← fixedDigits 2 s
  if second ≤ 60 then some (secondFraction s) else none

private def offset : List Char → List Char
  | 'Z' :: s => s
  | 'z' :: s => s
  | c :: s => if c = '+' || c = '-' then (hourAndMinute s).getD (c :: s) else c :: s
  | [] => []

/-- The time that may follow a date, and its offset. -/
private def timeAfterDate : List Char → List Char
  | c :: s =>
    if c = 'T' || c = 't' || c = ' ' then
      match time s with
      | some s => offset s
      | none => c :: s
    else c :: s
  | [] => []

def dateTime (s : List Char) : Option (Value × List Char) :=
  match date s with
  | some s => some (.dateTime, timeAfterDate s)
  | none => (time s).map (Value.dateTime, ·)

/-- Anything that starts with a sign or a digit, or is a special float. -/
def number (s : List Char) : Option (Value × List Char) :=
  (dateTime s).or ((float s).or (integer s))

end ChainRelay.Toml
