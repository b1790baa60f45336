-- Compiled templates: the pieces of an effect's code, each of which knows its effect.
import SnippetEngine.Effect
import SnippetEngine.Error
import SnippetEngine.Template.Segment

namespace SnippetEngine

inductive Piece
  | text (text : Text)
  | formula (formula : Formula)
  deriving DecidableEq

/-- A piece of a template, with the effect whose code holds it. -/
structure SnippetNode where
  effect : SharedEffect
  piece : Piece
  deriving DecidableEq

/-- A compiled template. -/
abbrev Snippet := List SnippetNode

namespace Snippet

/-- The piece that a segment of the code of effect `id` stands for. -/
def pieceOf (id : Text) : Segment → Except Error Piece
  | .text text => .ok (.text text)
  | .formula body offset =>
    match Formula.parse body with
    | .ok formula => .ok (.formula formula)
    | .error reason => .error (.invalidFormula id body offset reason)

/-- The pieces of the code of effect `id`; the first formula that is not well formed fails it. -/
def piecesOf (id code : Text) : Except Error (List Piece) := (Segment.scan code).mapM (pieceOf id)

/-- Compiles the code of an effect. -/
def compile (effect : SharedEffect) : Except Error Snippet :=
  (piecesOf effect.effect.id effect.effect.code).map (List.map (SnippetNode.mk effect))

/-- True if every node belongs to this very effect. -/
def isOwnedBy (effect : SharedEffect) (snippet : Snippet) : Bool :=
  snippet.all (·.effect = effect)

end Snippet

end SnippetEngine
