-- The identifiers in the code that templates produce, and how one of them is renamed: where it
-- stands alone it is replaced, and where it is part of a longer one it is left.
import SnippetEngine.Text.Letter
import SnippetEngine.Text.Search

namespace SnippetEngine.Code

open Text

/-- A character of an identifier; `$` counts. -/
def isIdentifierChar (c : Char) : Bool := isAlphanumeric c || c == '_' || c == '$'

/-- True if no identifier goes on with this character, or there is none. -/
def isEdge (c : Option Char) : Bool := !c.any isIdentifierChar

/-- Goes from occurrence to occurrence of the name `old`. An occurrence between two edges becomes
`new`. `last` is the character before the code; the first `skip` characters of the code belong to
an occurrence that is already written. -/
def renameFrom (old new : Text) : (last : Option Char) → (skip : Nat) → Text → Text
  | _, _, [] => []
  | _, skip + 1, c :: r => renameFrom old new (some c) skip r
  | last, 0, c :: r =>
    match after? old (c :: r) with
    | none => c :: renameFrom old new (some c) 0 r
    | some rest =>
      (if isEdge last && isEdge rest.head? then new else old) ++
        renameFrom old new (some c) (old.length - 1) r

/-- Writes `new` for the identifier `old` wherever it is no part of a longer one. -/
def rename (old new code : Text) : Text :=
  if old.isEmpty then code else renameFrom old new none 0 code

end SnippetEngine.Code
