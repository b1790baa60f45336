-- The document as an environment, and the overview of a match in it.
import SnippetEngine.Document.Apply
import SnippetEngine.Document.Completions
import SnippetEngine.Document.Formulas

namespace SnippetEngine

open Text

instance : Evaluator Document where
  name _ := Document.name
  friendlyName _ := "Plain Document".toList
  majorTypes _ := ["expr", "stmt", "ident"].map String.toList
  reset := Document.reset
  beginEvaluation := Document.forget
  testMatch := Document.testMatch
  applyResult := Document.applyResult
  completions := Document.completions
  interpretToken := Document.interpretToken
  evaluateFormula := Document.evaluateFormula
  evaluateText := Document.evaluateText

namespace Document

/-! ## Overviews -/

/-- The code between the first formula that opens a helper and the first that closes one, as it
is written; none if they do not stand in this order. -/
def helperSection? (code : Text) : Option Text := do
  let opening := "$\x7bhelper\x7d".toList
  let (beforeOpening, _) ← cutAround? opening code
  let (beforeClosing, _) ← cutAround? "$\x7bendHelper\x7d".toList code
  let start := beforeOpening.length + opening.length
  if start < beforeClosing.length then some (beforeClosing.drop start) else none

/-- The heading and the code of the helpers of a match; empty for an argument. -/
def helperNote (application : Option Application) : Text :=
  match application.bind fun a => helperSection? a.effect.effect.code with
  | some code => "\r\n Helper Classes:\r\n".toList ++ code
  | none => []

/-- The match at a node as a template that can be read: arguments show as `$` and their text,
and the cursor marker is left out. What the evaluation gathered is forgotten. -/
def overview (t : MatchTree) (n : NodeId) : Session (Synthesizer Document) Text := do
  let evaluated ← observing (Environment.evaluate t n true)
  modify fun s => { s with evaluator := s.evaluator.forget }
  let rendered ← evaluated
  let marker := (← get).evaluator.config.cursorMarker
  return replaceAll marker [] rendered ++ helperNote (← t.application? n)

end Document

end SnippetEngine
