/-!
Scanning TOML text, which is a list of characters: blanks, comments, line ends and keys' letters.
A scanner answers with what it found and with the text behind it, or with nothing.
-/

namespace ChainRelay.Toml

abbrev Scan (α : Type) := List Char → Option (α × List Char)

def isBlank (c : Char) : Bool := c = ' ' || c = '\t'

/-- The control characters, of which only the tab may stand in a comment or a string. -/
def isControl (c : Char) : Bool := c.toNat < 0x20 && c ≠ '\t' || c.toNat = 0x7F

def isDigit (c : Char) : Bool := '0' ≤ c && c ≤ '9'

def isBareKeyChar (c : Char) : Bool :=
  isDigit c || 'a' ≤ c && c ≤ 'z' || 'A' ≤ c && c ≤ 'Z' || c = '-' || c = '_'

def skipBlanks (s : List Char) : List Char := s.dropWhile isBlank

def expect : List Char → List Char → Option (List Char)
  | [], s => some s
  | c :: cs, d :: s => if c = d then expect cs s else none
  | _ :: _, [] => none

def newline : List Char → Option (List Char)
  | '\n' :: s => some s
  | '\r' :: '\n' :: s => some s
  | _ => none

/-- What follows a comment, if one begins here. -/
def skipComment : List Char → List Char
  | '#' :: s => s.dropWhile fun c => !isControl c
  | s => s

/-- The rest of a line without content: blanks, perhaps a comment, and the end of the line or of the
text. -/
def endLine (s : List Char) : Option (List Char) :=
  match skipComment (skipBlanks s) with
  | [] => some []
  | s => newline s

/-- Blanks, comments and line ends; a comment must be followed by a line end. The fuel bounds the
number of lines. -/
def skipLines : (fuel : Nat) → List Char → List Char
  | 0, s => s
  | fuel + 1, s =>
    let s := skipBlanks s
    match newline (skipComment s) with
    | some rest => skipLines fuel rest
    | none => s

/-- Digits in groups that single underscores may separate. -/
def digitGroups (isDigit : Char → Bool) : List Char → Option (List Char × List Char)
  | c :: '_' :: s =>
    if isDigit c then (digitGroups isDigit s).map fun (ds, rest) => (c :: ds, rest) else none
  | c :: s =>
    if isDigit c then
      match digitGroups isDigit s with
      | some (ds, rest) => some (c :: ds, rest)
      | none => some ([c], s)
    else none
  | [] => none

end ChainRelay.Toml
