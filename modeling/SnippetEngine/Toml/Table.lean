-- Tables while they are built. A table remembers what made it, because that decides which
-- statements may still add to it.
import SnippetEngine.Value

namespace SnippetEngine.Toml

/-- What made a table. -/
inductive Origin
  /-- A header of its own. -/
  | header
  /-- The header of a table inside it. -/
  | implied
  /-- A key with dots. -/
  | dotted
  deriving DecidableEq

inductive Entry
  /-- A value, to which nothing is added. -/
  | value (value : Value)
  | table (origin : Origin) (entries : List (Text × Entry))
  /-- An array of tables; its last table is the one that is added to. -/
  | tables (elements : List (List (Text × Entry)))

/-- The keys of a table with their entries, in the order of the keys' first mention. -/
abbrev Table := List (Text × Entry)

mutual

def Entry.toValue : Entry → Value
  | .value v => v
  | .table _ entries => .table (Table.toValues entries)
  | .tables elements => .list (Table.listToValues elements)

def Table.toValues : List (Text × Entry) → List (Text × Value)
  | [] => []
  | (key, entry) :: rest => (key, entry.toValue) :: Table.toValues rest

def Table.listToValues : List (List (Text × Entry)) → List Value
  | [] => []
  | t :: ts => .table (Table.toValues t) :: Table.listToValues ts

end

namespace Table

/-- Changes the entry of a key, or adds one. -/
def alter (key : Text) (f : Option Entry → Option Entry) : Table → Option Table
  | [] => (f none).map fun e => [(key, e)]
  | (k, e) :: rest =>
    if k = key then (f (some e)).map fun e => (k, e) :: rest
    else (alter key f rest).map ((k, e) :: ·)

/-- Changes the last table of an array of tables. -/
def alterLast (f : Table → Option Table) : List Table → Option (List Table)
  | [] => none
  | [t] => (f t).map ([·])
  | t :: ts => (alterLast f ts).map (t :: ·)

/-- Changes the table at a path of headers. Tables that are missing on the way are implied. -/
def within (f : Table → Option Table) : List Text → Table → Option Table
  | [], t => f t
  | key :: path, t => t.alter key fun
    | none => (within f path []).map (.table .implied)
    | some (.table origin sub) => (within f path sub).map (.table origin)
    | some (.tables elements) => (alterLast (within f path) elements).map .tables
    | some (.value _) => none

/-- Sets the value at a path of keys. A table on the way has no header of its own; it counts from
now on as made by keys. The way may go through the last table of an array, but not end there. -/
def assign (v : Value) : List Text → Table → Option Table
  | [], _ => none
  | [key], t => t.alter key fun
    | none => some (.value v)
    | some _ => none
  | key :: path, t => t.alter key fun
    | none => (assign v path []).map (.table .dotted)
    | some (.table .header _) => none
    | some (.table _ sub) => (assign v path sub).map (.table .dotted)
    | some (.tables elements) =>
      if path.length = 1 then none else (alterLast (assign v path) elements).map .tables
    | some (.value _) => none

/-- The table of pairs alone. -/
def ofPairs (pairs : List (List Text × Value)) : Option Table :=
  pairs.foldlM (fun t (path, v) => assign v path t) []

/-- Opens the table of a header: it is new, or only implied so far. -/
def openTable (key : Text) (t : Table) : Option Table :=
  t.alter key fun
    | none => some (.table .header [])
    | some (.table .implied sub) => some (.table .header sub)
    | some _ => none

/-- Adds an empty table to an array of tables. -/
def openElement (key : Text) (t : Table) : Option Table :=
  t.alter key fun
    | none => some (.tables [[]])
    | some (.tables elements) => some (.tables (elements ++ [[]]))
    | some _ => none

end Table

end SnippetEngine.Toml
