-- An evaluator that answers formulas from a script and writes down what it is asked to do. It
-- is for trying out templates without a document.
import SnippetEngine.Synthesis

namespace SnippetEngine

namespace Scripted

inductive Entry
  | formula (name : Text) (node : NodeId) (scope : Bindings)
  | applied (result : Text) (effect : Option Text)
  | reset

end Scripted

structure Scripted where
  /-- The texts of the formulas that no variable stands for. -/
  values : Bindings := []
  /-- The formulas that fail. -/
  failing : List Text := []
  /-- True if no result is accepted. -/
  refusesResults : Bool := false
  log : List Scripted.Entry := []
  /-- The number of tokens interpreted so far. -/
  interpreted : Nat := 0

namespace Scripted

def record (entry : Entry) (s : Scripted) : Scripted := { s with log := s.log ++ [entry] }

instance : Evaluator Scripted where
  name _ := "stub".toList
  reset s := s.record .reset
  testMatch _ _ _ := .ok true
  applyResult result effect := do
    if (← get).refusesResults then
      throw (.applyFailed (.refused "stub rejected the change".toList))
    modify (record (.applied result (effect.map (·.id))))
  completions _ n := return ["completion".toList ++ Text.decimal n]
  interpretToken _ := do
    modify fun s => { s with interpreted := s.interpreted + 1 }
    return "call".toList ++ Text.decimal (← get).interpreted
  evaluateFormula site scope formula := do
    modify (record (.formula formula.name site.node scope))
    let s ← get
    if s.failing.contains formula.name then
      throw (.applyFailed (.refused ("formula ".toList ++ formula.name)))
    return ((scope.value? formula.name).or (s.values.value? formula.name)).getD []

end Scripted

end SnippetEngine
