import ChainRelay.Text.Hidden

/-!
Text between double quotes. Quotes and backslashes are escaped, and so is every character that
does not show on its own.
-/

namespace ChainRelay.Text

def hex (n : Nat) : String := String.ofList (Nat.toDigits 16 n)

/-- Hexadecimal digits, filled up with zeros on the left to `width`. -/
def hexPadded (width n : Nat) : String :=
  let digits := Nat.toDigits 16 n
  String.ofList (List.replicate (width - digits.length) '0' ++ digits)

def escape (c : Char) : List Char :=
  if c = '\x00' then ['\\', '0']
  else if c = '\t' then ['\\', 't']
  else if c = '\n' then ['\\', 'n']
  else if c = '\r' then ['\\', 'r']
  else if c = '"' then ['\\', '"']
  else if c = '\\' then ['\\', '\\']
  else if isHidden c then ['\\', 'u', '\x7b'] ++ Nat.toDigits 16 c.toNat ++ ['\x7d']
  else [c]

def quote (s : String) : String :=
  String.ofList ('"' :: s.toList.flatMap escape ++ ['"'])

def optional (text : α → String) : Option α → String
  | none => "None"
  | some x => "Some(" ++ text x ++ ")"

end ChainRelay.Text
