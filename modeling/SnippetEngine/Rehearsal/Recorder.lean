-- An environment that writes down what it is asked to do. It is for trying out matches without
-- templates and without a document.
import SnippetEngine.Environment

namespace SnippetEngine

namespace Recorder

inductive Entry
  | evaluated (node : NodeId) (values : List Text)
  | applied (result : Text) (effect : Option Text)

end Recorder

/-- What was asked for since the last reset. -/
structure Recorder where
  log : List Recorder.Entry := []

namespace Recorder

def record (entry : Entry) : Session Recorder Unit := modify fun r => { log := r.log ++ [entry] }

/-- The id of the effect, and the values in angle brackets with bars between them. -/
def rendering (id : Text) (values : List Text) : Text :=
  id ++ '<' :: List.intercalate ['|'] values ++ ['>']

instance : Environment Recorder where
  name _ := "plain".toList
  reset _ := {}
  testMatch _ t n := t.isComplete n
  evaluateEffect t n values := do
    match ← t.application? n with
    | none => throw (.notAnEffectNode n)
    | some a =>
      record (.evaluated n values)
      return rendering a.effect.effect.id values
  applyResult result effect := record (.applied result (effect.map (·.id)))
  completions _ _ := return []
  interpretToken token := return "plain:".toList ++ token

end Recorder

end SnippetEngine
