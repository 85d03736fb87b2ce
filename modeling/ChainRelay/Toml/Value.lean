/-!
TOML values and tables. A table remembers how it came to be, since that decides what may still be
added to it.
-/

namespace ChainRelay.Toml

inductive Origin where
  /-- By a header of its own, or by braces. -/
  | explicit
  /-- By the header of a table inside it. -/
  | implied
  /-- By a dotted key. -/
  | dotted
  deriving DecidableEq

inductive Value where
  | string (text : String)
  | integer (n : Int)
  | float
  | boolean (b : Bool)
  | dateTime
  | array (items : List Value)
  /-- Written in braces, or made by a dotted key inside braces. -/
  | inlineTable (origin : Origin) (entries : List (String × Value))
  | table (origin : Origin) (entries : List (String × Value))
  /-- Made by headers in double brackets; each item is a table, and the last one comes first. -/
  | tables (items : List (List (String × Value)))

structure Table where
  origin : Origin := .explicit
  entries : List (String × Value) := []

namespace Table

def find? (t : Table) (key : String) : Option Value := t.entries.lookup key

def erase (t : Table) (key : String) : Table :=
  { t with entries := t.entries.filter (·.1 ≠ key) }

/-- Adds an entry, or replaces the one with the same key. -/
def set (t : Table) (key : String) (v : Value) : Table :=
  if (t.find? key).isSome then
    { t with entries := t.entries.map fun e => if e.1 = key then (key, v) else e }
  else { t with entries := t.entries ++ [(key, v)] }

end Table
end ChainRelay.Toml
