import ChainRelay.Toml.Number
import ChainRelay.Toml.Text

/-!
TOML documents: keys, values and tables. The text is read line by line; every line adds an entry to
the table that the last header opened, or opens another one. Defining anything twice is refused.
-/

namespace ChainRelay.Toml

/-- Keys and values must be nested less deeply than this. -/
def depthLimit : Nat := 80

namespace Table

/-- Changes the table at a path, whose missing tables are made on the way. In an array of tables the
last one is meant. Along a dotted key no explicit table is entered. -/
def changeAt (change : Table → Option Table) (dotted : Bool) : List String → Table → Option Table
  | [], t => change t
  | key :: path, t =>
    match t.find? key with
    | none => do
      let child ← changeAt change dotted path ⟨if dotted then .dotted else .implied, []⟩
      return t.set key (.table child.origin child.entries)
    | some (.table origin entries) =>
      if dotted && origin = .explicit then none
      else do
        let child ← changeAt change dotted path ⟨origin, entries⟩
        return t.set key (.table child.origin child.entries)
    | some (.tables (last :: earlier)) => do
      let child ← changeAt change dotted path ⟨.explicit, last⟩
      return t.set key (.tables (child.entries :: earlier))
    | some _ => none

/-- The same inside braces, where there are no headers. -/
def changeInlineAt (change : Table → Option Table) : List String → Table → Option Table
  | [], t => change t
  | key :: path, t =>
    match t.find? key with
    | none => do
      let child ← changeInlineAt change path ⟨.dotted, []⟩
      return t.set key (.inlineTable child.origin child.entries)
    | some (.inlineTable origin entries) =>
      if origin = .explicit then none
      else do
        let child ← changeInlineAt change path ⟨origin, entries⟩
        return t.set key (.inlineTable child.origin child.entries)
    | some _ => none

/-- Adds a new entry; a table that a header implied is closed to dotted keys. -/
def add (viaDots : Bool) (key : String) (v : Value) (t : Table) : Option Table :=
  if viaDots && t.origin ≠ .dotted then none
  else if (t.find? key).isSome then none
  else some (t.set key v)

private def splitKey (key : List String) : Option (List String × String) :=
  key.getLast?.map (key.dropLast, ·)

def addEntry (t : Table) (key : List String) (v : Value) : Option Table := do
  let (path, name) ← splitKey key
  t.changeAt (add (!path.isEmpty) name v) true path

def addInlineEntry (t : Table) (key : List String) (v : Value) : Option Table := do
  let (path, name) ← splitKey key
  t.changeInlineAt (add (!path.isEmpty) name v) path

end Table

private def simpleKey (fuel : Nat) : Scan String
  | s@('"' :: _) => shortString fuel s
  | s@('\'' :: _) => shortString fuel s
  | s =>
    let name := s.takeWhile isBareKeyChar
    if name.isEmpty then none else some (String.ofList name, s.drop name.length)

/-- At most `parts` parts separated by dots, with blanks around each. -/
private def keyParts (fuel : Nat) : (parts : Nat) → Scan (List String)
  | 0, _ => none
  | parts + 1, s => do
    let (part, s) ← simpleKey fuel (skipBlanks s)
    match skipBlanks s with
    | '.' :: s =>
      let (rest, s) ← keyParts fuel parts s
      return (part :: rest, s)
    | s => return ([part], s)

/-- A key, perhaps a dotted one. The fuel bounds the number of its characters. -/
def key (fuel : Nat) : Scan (List String) := keyParts fuel (depthLimit - 1)

private def literal (s : List Char) : Option (Value × List Char) :=
  match expect ['t', 'r', 'u', 'e'] s with
  | some rest => some (.boolean true, rest)
  | none => (expect ['f', 'a', 'l', 's', 'e'] s).map (Value.boolean false, ·)

private def scalar (fuel : Nat) (s : List Char) : Option (Value × List Char) :=
  match s with
  | '"' :: _ | '\'' :: _ => (anyString fuel s).map fun (text, rest) => (.string text, rest)
  | _ => (literal s).or (number s)

mutual

/-- A value. The fuel bounds the steps, the depth the nesting. -/
def value (fuel depth : Nat) (s : List Char) : Option (Value × List Char) :=
  match fuel with
  | 0 => none
  | fuel + 1 =>
    match s with
    | '[' :: s =>
      match depth with
      | 0 => none
      | depth + 1 => (items fuel depth s).map fun (vs, rest) => (.array vs, rest)
    | '\x7b' :: s =>
      match depth with
      | 0 => none
      | depth + 1 =>
        match skipBlanks s with
        | '\x7d' :: rest => some (.inlineTable .explicit [], rest)
        | s => (entries fuel depth {} s).map fun (t, rest) =>
          (.inlineTable .explicit t.entries, rest)
    | s => scalar fuel s

def items (fuel depth : Nat) (s : List Char) : Option (List Value × List Char) :=
  match fuel with
  | 0 => none
  | fuel + 1 =>
    match skipLines fuel s with
    | ']' :: rest => some ([], rest)
    | s => do
      let (v, s) ← value fuel depth s
      match skipLines fuel s with
      | ',' :: s =>
        let (vs, rest) ← items fuel depth s
        return (v :: vs, rest)
      | ']' :: rest => return ([v], rest)
      | _ => none

def entries (fuel depth : Nat) (t : Table) (s : List Char) : Option (Table × List Char) :=
  match fuel with
  | 0 => none
  | fuel + 1 => do
    let (k, s) ← key fuel s
    let s ← expect ['='] s
    let (v, s) ← value fuel depth (skipBlanks s)
    let t ← t.addInlineEntry k v
    match skipBlanks s with
    | ',' :: s => entries fuel depth t s
    | '\x7d' :: rest => some (t, rest)
    | _ => none

end

/-- A document in the making: the finished tables, and the one that lines are added to, with the
path of its header. -/
structure Reader where
  root : Table := {}
  current : Table := {}
  path : List String := []
  /-- The header was in double brackets. -/
  inArray : Bool := false

namespace Reader

def close (r : Reader) : Option Table :=
  match r.path.getLast? with
  | none => some r.current
  | some name =>
    let put (parent : Table) : Option Table :=
      if r.inArray then
        match parent.find? name with
        | none => some (parent.set name (.tables [r.current.entries]))
        | some (.tables earlier) => some (parent.set name (.tables (r.current.entries :: earlier)))
        | some _ => none
      else if (parent.find? name).isSome then none
      else some (parent.set name (.table r.current.origin r.current.entries))
    r.root.changeAt put false r.path.dropLast

private def lookup : List String → Table → Option Value
  | [], _ => none
  | [key], t => t.find? key
  | key :: path, t =>
    match t.find? key with
    | some (.table origin entries) => lookup path ⟨origin, entries⟩
    | some (.tables (last :: _)) => lookup path ⟨.explicit, last⟩
    | _ => none

/-- Opens the table of a header. One that was only implied so far is opened again, with what it
has. -/
def openTable (r : Reader) (path : List String) : Option Reader := do
  let root ← r.close
  let name ← path.getLast?
  let detach (parent : Table) : Option Table := some (parent.erase name)
  let found := lookup path root
  let root ← root.changeAt detach false path.dropLast
  match found with
  | none => return { root, path }
  | some (.table .implied entries) => return { root, path, current := ⟨.explicit, entries⟩ }
  | some _ => none

def openArrayTable (r : Reader) (path : List String) : Option Reader := do
  let root ← r.close
  let name ← path.getLast?
  let check (parent : Table) : Option Table :=
    match parent.find? name with
    | none => some parent
    | some (.tables _) => some parent
    | some _ => none
  let root ← root.changeAt check false path.dropLast
  return { root, path, inArray := true }

/-- Reads an entry, a header, a comment or nothing, to the end of the line. The fuel bounds the
number of characters that are left. -/
def line (fuel : Nat) (r : Reader) (s : List Char) : Option (Reader × List Char) :=
  match skipBlanks s with
  | '[' :: '[' :: s => do
    let (path, s) ← key fuel s
    let s ← (expect [']', ']'] s).bind endLine
    return (← r.openArrayTable path, s)
  | '[' :: s => do
    let (path, s) ← key fuel s
    let s ← (expect [']'] s).bind endLine
    return (← r.openTable path, s)
  | s =>
    match endLine s with
    | some rest => some (r, rest)
    | none => do
      let (k, s) ← key fuel s
      let s := skipBlanks (← expect ['='] s)
      let (v, s) ← value (2 * fuel + 2) (depthLimit - 1) s
      let s ← endLine s
      return ({ r with current := ← r.current.addEntry k v }, s)

def lines : (fuel : Nat) → Reader → List Char → Option Table
  | _, r, [] => r.close
  | 0, _, _ => none
  | fuel + 1, r, s => do
    let (r, s) ← line (fuel + 1) r s
    lines fuel r s

end Reader

/-- The table that a document describes, if it is one. A byte order mark is passed over. -/
def parse? (text : String) : Option Table :=
  match text.toList with
  | '\ufeff' :: s => Reader.lines s.length {} s
  | s => Reader.lines s.length {} s

end ChainRelay.Toml
