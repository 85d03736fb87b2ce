import ChainRelay.Toml.Scan

/-!
TOML strings: basic ones with escapes and literal ones without, each on one line or, between triple
quotes, on several. A line end inside a string is a line feed, however it was written.
-/

namespace ChainRelay.Toml

private def hexDigit? (c : Char) : Option Nat :=
  if isDigit c then some (c.toNat - '0'.toNat)
  else if 'a' ≤ c && c ≤ 'f' then some (c.toNat - 'a'.toNat + 10)
  else if 'A' ≤ c && c ≤ 'F' then some (c.toNat - 'A'.toNat + 10)
  else none

/-- The character whose number the next `width` hexadecimal digits give, if it is one. -/
private def numbered (width : Nat) (s : List Char) : Option Char := do
  let ds ← (s.take width).mapM hexDigit?
  let n := ds.foldl (fun n d => n * 16 + d) 0
  if ds.length = width ∧ n.isValidChar then some (Char.ofNat n) else none

/-- Reads what follows a backslash. -/
def unescape : Scan Char
  | 'b' :: s => some ('\x08', s)
  | 't' :: s => some ('\t', s)
  | 'n' :: s => some ('\n', s)
  | 'f' :: s => some ('\x0c', s)
  | 'r' :: s => some ('\r', s)
  | '"' :: s => some ('"', s)
  | '\\' :: s => some ('\\', s)
  | 'u' :: s => (numbered 4 s).map (·, s.drop 4)
  | 'U' :: s => (numbered 8 s).map (·, s.drop 8)
  | _ => none

private def put (c : Char) : Option (List Char × List Char) → Option (List Char × List Char) :=
  Option.map fun (text, rest) => (c :: text, rest)

def basicBody : (fuel : Nat) → Scan (List Char)
  | 0, _ => none
  | fuel + 1, s =>
    match s with
    | [] => none
    | '"' :: s => some ([], s)
    | '\\' :: s => do
      let (c, s) ← unescape s
      put c (basicBody fuel s)
    | c :: s => if isControl c then none else put c (basicBody fuel s)

def literalBody : Scan (List Char)
  | [] => none
  | '\'' :: s => some ([], s)
  | c :: s => if isControl c then none else put c (literalBody s)

def skipSpace : (fuel : Nat) → List Char → List Char
  | 0, s => s
  | fuel + 1, s =>
    let s := skipBlanks s
    match newline s with
    | some rest => skipSpace fuel rest
    | none => s

/-- A backslash at the end of a line: all space up to the next character is left out. -/
def continuation (fuel : Nat) (s : List Char) : Option (List Char) :=
  (newline (skipBlanks s)).map (skipSpace fuel)

/-- Three closing quotes; up to two more just before them belong to the text. -/
def closing (quote : Char) (s : List Char) : Option (List Char × List Char) :=
  let run := (s.takeWhile (· = quote)).length
  if run < 3 then none
  else
    let inside := min (run - 3) 2
    some (List.replicate inside quote, s.drop (inside + 3))

def longBasicBody : (fuel : Nat) → Scan (List Char)
  | 0, _ => none
  | fuel + 1, s =>
    match closing '"' s with
    | some done => some done
    | none =>
      match newline s with
      | some rest => put '\n' (longBasicBody fuel rest)
      | none =>
        match s with
        | [] => none
        | '\\' :: s =>
          match continuation fuel s with
          | some rest => longBasicBody fuel rest
          | none => do
            let (c, s) ← unescape s
            put c (longBasicBody fuel s)
        | c :: s => if isControl c then none else put c (longBasicBody fuel s)

def longLiteralBody : (fuel : Nat) → Scan (List Char)
  | 0, _ => none
  | fuel + 1, s =>
    match closing '\'' s with
    | some done => some done
    | none =>
      match newline s with
      | some rest => put '\n' (longLiteralBody fuel rest)
      | none =>
        match s with
        | [] => none
        | c :: s => if isControl c then none else put c (longLiteralBody fuel s)

/-- A line end just behind the opening quotes does not count. -/
private def skipFirstNewline (s : List Char) : List Char := (newline s).getD s

/-- A string on one line. The fuel bounds the number of its characters. -/
def shortString (fuel : Nat) : Scan String
  | '"' :: s => (basicBody fuel s).map fun (text, rest) => (String.ofList text, rest)
  | '\'' :: s => (literalBody s).map fun (text, rest) => (String.ofList text, rest)
  | _ => none

def anyString (fuel : Nat) : Scan String
  | '"' :: '"' :: '"' :: s =>
    (longBasicBody fuel (skipFirstNewline s)).map fun (text, rest) =>
      (String.ofList text, rest)
  | '\'' :: '\'' :: '\'' :: s =>
    (longLiteralBody fuel (skipFirstNewline s)).map fun (text, rest) =>
      (String.ofList text, rest)
  | s => shortString fuel s

end ChainRelay.Toml
