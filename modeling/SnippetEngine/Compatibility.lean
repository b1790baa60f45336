-- Which types of values fit where another type is expected.
import SnippetEngine.TypeName

namespace SnippetEngine

/-- The types that each expected type accepts besides itself. -/
abbrev Compatibility := List (Text × List Text)

namespace Compatibility

/-- The widening rules of the primitive types. -/
def standard : Compatibility :=
  [("float", ["int", "long", "short", "byte"]),
    ("double", ["int", "long", "short", "byte", "float"]),
    ("long", ["int", "short", "byte"]),
    ("int", ["char", "short", "byte"]),
    ("short", ["byte", "char"]),
    ("byte", ["char"]),
    ("char", ["int", "short", "byte"])].map
      (fun (expected, accepted) => (expected.toList, accepted.map String.toList)) ++
    [(TypeName.anyNumber, TypeName.numeric)]

/-- The types that `expected` accepts by widening. -/
def accepted (table : Compatibility) (expected : Text) : List Text :=
  ((table.find? (·.1 == expected)).map Prod.snd).getD []

def addNew (known types : List Text) : List Text :=
  types.foldl (fun ts t => if ts.contains t then ts else ts ++ [t]) known

def extend (expected : Text) (types : List Text) : Compatibility → Compatibility
  | [] => [(expected, addNew [] types)]
  | (e, known) :: rest =>
    if e = expected then (e, addNew known types) :: rest
    else (e, known) :: extend expected types rest

/-- Extends the standard rules by each entry in turn. -/
def ofEntries (entries : List (Text × List Text)) : Compatibility :=
  entries.foldl (fun table (expected, types) => extend expected types table) standard

/-- True if a value of type `actual` fits where `expected` stands. An empty expected type
accepts everything, and an empty actual type fits nothing else. -/
def isCompatible (table : Compatibility) (expected actual : Text) : Bool :=
  expected.isEmpty || expected == actual ||
    (!actual.isEmpty &&
      (TypeName.universal.contains expected ||
        ((expected == TypeName.anyArray || expected == ['[', ']']) && TypeName.isArray actual) ||
        (expected == TypeName.anyLoopable && TypeName.isLoopable actual) ||
        (table.accepted expected).contains actual))

end Compatibility

end SnippetEngine
