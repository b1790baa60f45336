-- The names of minor types: primitive numbers, arrays `T[]` and generic types `C<T>`.
import SnippetEngine.Text.Blank
import SnippetEngine.Text.Search

namespace SnippetEngine.TypeName

open Text

def numeric : List Text :=
  ["int", "long", "short", "byte", "char", "float", "double"].map String.toList

/-- The collection types that a loop can go over, without package and type arguments. -/
def collections : List Text :=
  ["Iterable", "Collection", "List", "Set", "SortedSet", "Queue", "Deque", "ArrayList",
    "LinkedList", "Vector", "Stack", "HashSet", "LinkedHashSet", "TreeSet", "ArrayDeque",
    "PriorityQueue"].map String.toList

def universal : List Text := ["Object", "java.lang.Object"].map String.toList

/-! ## Pseudo types of parameters -/

/-- Accepts every array. -/
def anyArray : Text := "$array".toList

/-- Accepts everything that a loop can go over. -/
def anyLoopable : Text := "$loopable".toList

/-- Accepts every primitive number. -/
def anyNumber : Text := "$number".toList

def newIdentifier : Text := "$ident".toList

/-! ## Tests on type names -/

def isNumeric (type : Text) : Bool := numeric.contains type

def isArray (type : Text) : Bool := endsWith ['[', ']'] type

/-- The part of a qualified name behind its last dot. -/
def unqualified (name : Text) : Text := (name.reverse.takeWhile (· != '.')).reverse

/-- Arrays and collections, whatever their package and type arguments. -/
def isLoopable (type : Text) : Bool :=
  isArray type || collections.contains (unqualified (trim (type.takeWhile (· != '<'))))

/-- The type of the elements: `T` for an array `T[]` and for a generic type `C<T>`. Everything
between the outermost brackets counts as one argument. -/
def element? (type : Text) : Option Text :=
  match before? ['[', ']'] type with
  | some element => some (trim element)
  | none => do
    let (_, arguments) ← cutAtChar? '<' type
    let inner ← before? ['>'] arguments
    if (trim inner).isEmpty then none else some (trim inner)

end SnippetEngine.TypeName
