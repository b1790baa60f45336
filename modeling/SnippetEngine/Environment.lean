-- Environments: what evaluates a match and takes the result. Evaluation goes from the leaves
-- up, and what a step did to the environment stays done when a later step fails.
import SnippetEngine.Bindings
import SnippetEngine.Match.Shape
import SnippetEngine.Text.Blank

namespace SnippetEngine

/-- A computation on the state `σ` of an environment. -/
abbrev Session (σ : Type) := ExceptT Error (StateM σ)

class Environment (σ : Type) where
  name : σ → Text
  friendlyName : σ → Text := name
  /-- The major types that the environment understands. -/
  majorTypes : σ → List Text := fun _ => []
  /-- Discards whatever was applied. -/
  reset : σ → σ
  /-- Discards what an earlier evaluation gathered. -/
  beginEvaluation : σ → σ := id
  /-- True if the match at a node is valid here. -/
  testMatch : σ → MatchTree → NodeId → Except Error Bool
  /-- The value of the application at a node, given the values of its children. -/
  evaluateEffect : MatchTree → NodeId → List Text → Session σ Text
  /-- Takes an evaluated match, with its effect if it is the match of one. -/
  applyResult : Text → Option Effect → Session σ Unit
  /-- The texts on offer for the argument at a node. -/
  completions : MatchTree → NodeId → Session σ (List Text)
  /-- What a token of a query stands for. -/
  interpretToken : Text → StateM σ Text

/-- What an argument evaluates to: the fixed value of its parameter if there is one, and else
its text. In an overview the text stands behind a `$`. -/
def Argument.value (a : Argument) (overview : Bool) : Text :=
  match a.parameter.bind (·.fixedValue) with
  | some value => value
  | none => if overview then '$' :: a.text.getD [] else a.text.getD []

namespace Environment

variable {σ : Type} [Environment σ]

mutual

/-- The value of a match: its children from left to right, then the match itself. -/
def evaluateShape (t : MatchTree) (overview : Bool) : Shape → Session σ Text
  | .argument _ a => return a.value overview
  | .application n _ children => do
    let values ← evaluateShapes t overview children
    evaluateEffect t n values

def evaluateShapes (t : MatchTree) (overview : Bool) : List Shape → Session σ (List Text)
  | [] => return []
  | s :: ss => do
    let value ← evaluateShape t overview s
    let values ← evaluateShapes t overview ss
    return value :: values

end

/-- Begins an evaluation and evaluates the match at a node. -/
def evaluate (t : MatchTree) (n : NodeId) (overview : Bool) : Session σ Text := do
  modify beginEvaluation
  let s ← t.shape n
  evaluateShape t overview s

/-- Evaluates the match at a node and applies the result. -/
def apply (t : MatchTree) (n : NodeId) : Session σ Unit := do
  let result ← evaluate t n false
  let application ← t.application? n
  applyResult result (application.map (·.effect.effect))

/-- What the tokens of a query stand for. Of equal tokens the last counts. -/
def interpretQuery (query : Text) : StateM σ Bindings :=
  (Text.words query).foldlM
    (fun bs token => return bs.bind token (← interpretToken token)) []

end Environment

end SnippetEngine
