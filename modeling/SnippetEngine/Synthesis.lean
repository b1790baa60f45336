-- Environments that build texts from the code of effects. Each effect is compiled when it is
-- first asked for, and an id keeps the snippet that it was first compiled to. An evaluator
-- says what the pieces of a snippet stand for.
import SnippetEngine.Environment
import SnippetEngine.Template.Snippet

namespace SnippetEngine

/-- Where a piece of a snippet is evaluated. -/
structure Site where
  tree : MatchTree
  node : NodeId
  /-- The application at that node. -/
  application : Application
  /-- The effect that the piece belongs to. -/
  owner : SharedEffect

class Evaluator (ε : Type) where
  name : ε → Text
  friendlyName : ε → Text := name
  majorTypes : ε → List Text := fun _ => []
  reset : ε → ε
  beginEvaluation : ε → ε := id
  testMatch : ε → MatchTree → NodeId → Except Error Bool
  applyResult : Text → Option Effect → Session ε Unit
  completions : MatchTree → NodeId → Session ε (List Text)
  interpretToken : Text → StateM ε Text
  /-- The text that a formula stands for, given the variables that are bound before it. -/
  evaluateFormula : Site → Bindings → Formula → Session ε Text
  /-- The text that literal text stands for. -/
  evaluateText : Site → Bindings → Text → Session ε Text := fun _ _ text => return text

/-- An evaluator, and the snippets compiled so far. -/
structure Synthesizer (ε : Type) where
  evaluator : ε
  cache : List (Text × Snippet) := []

/-! ## The text of a snippet -/

namespace Evaluator

variable {ε : Type} [Evaluator ε]

/-- The text of a piece, and the variables for the pieces behind it. -/
def evaluatePiece (site : Site) (scope : Bindings) : Piece → Session ε (Text × Bindings)
  | .text text => return (← evaluateText site scope text, scope)
  | .formula formula => do
    let value ← evaluateFormula site scope formula
    match formula.capture with
    | some name => return (value, scope.bind name value)
    | none => return (value, scope)

/-- The texts of the nodes of a snippet one after another, in the order of the code. -/
def render (tree : MatchTree) (node : NodeId) (application : Application) :
    Bindings → Snippet → Session ε Text
  | _, [] => return []
  | scope, s :: ss => do
    let (text, scope) ← evaluatePiece ⟨tree, node, application, s.effect⟩ scope s.piece
    let rest ← render tree node application scope ss
    return text ++ rest

end Evaluator

namespace Synthesizer

variable {ε : Type}

/-! ## The cache -/

def cached? (s : Synthesizer ε) (id : Text) : Option Snippet :=
  (s.cache.find? (·.1 == id)).map Prod.snd

def isCached (s : Synthesizer ε) (id : Text) : Bool := (s.cached? id).isSome

/-- The snippet of an effect. It is compiled on the first request; a failure is not kept. -/
def snippet (effect : SharedEffect) : Session (Synthesizer ε) Snippet := do
  let s ← get
  match s.cached? effect.effect.id with
  | some snippet => return snippet
  | none =>
    let snippet ← Snippet.compile effect
    set { s with cache := s.cache ++ [(effect.effect.id, snippet)] }
    return snippet

/-! ## Evaluation -/

/-- A computation of the evaluator alone. -/
def onEvaluator {α : Type} (x : Session ε α) : Session (Synthesizer ε) α :=
  ExceptT.mk fun s =>
    let (result, evaluator) := x.run.run s.evaluator
    (result, { s with evaluator })

variable [Evaluator ε]

/-- The trimmed text of the snippet of an application. The parameters are bound to the values of
the children. -/
def evaluateEffect (t : MatchTree) (n : NodeId) (values : List Text) :
    Session (Synthesizer ε) Text := do
  match ← t.application? n with
  | none => throw (.notAnEffectNode n)
  | some a =>
    let names := a.effect.effect.parameters.map (·.name)
    let snippet ← snippet a.effect
    let text ← onEvaluator (Evaluator.render t n a (Bindings.ofList (names.zip values)) snippet)
    return Text.trim text

instance : Environment (Synthesizer ε) where
  name s := Evaluator.name s.evaluator
  friendlyName s := Evaluator.friendlyName s.evaluator
  majorTypes s := Evaluator.majorTypes s.evaluator
  reset s := { s with evaluator := Evaluator.reset s.evaluator }
  beginEvaluation s := { s with evaluator := Evaluator.beginEvaluation s.evaluator }
  testMatch s := Evaluator.testMatch s.evaluator
  evaluateEffect := evaluateEffect
  applyResult result effect := onEvaluator (Evaluator.applyResult result effect)
  completions t n := onEvaluator (Evaluator.completions t n)
  interpretToken token := do
    let s ← get
    let (text, evaluator) := (Evaluator.interpretToken token).run s.evaluator
    set { s with evaluator }
    return text

end Synthesizer

end SnippetEngine
