-- Environments with a log of what they are asked to do. The log does not change what an environment
-- answers, nor what becomes of it.
import SnippetEngine.Proofs.Session.Agreement

namespace SnippetEngine

open Session

/-! ## Environments with a log -/

/-- A request for the value of the application at a node, and the answer. -/
structure Visit where
  tree : MatchTree
  node : NodeId
  values : List Text
  answer : Except Error Text

/-- What an environment is asked to do. -/
inductive Call
  | begun
  | visited (visit : Visit)
  | applied (result : Text) (effect : Option Effect) (answer : Except Error Unit)
  | completed (t : MatchTree) (n : NodeId)
  | interpreted (token : Text)
  | reset

/-- An environment, and what it was asked to do. -/
structure Traced (σ : Type) where
  state : σ
  calls : List Call := []

namespace Traced

variable {σ α : Type}

/-- A step of the environment, which is noted with its answer. -/
def noting (note : Except Error α → Call) (x : Session σ α) : Session (Traced σ) α :=
  ExceptT.mk fun u =>
    let (answer, state) := x.run.run u.state
    (answer, { state, calls := u.calls ++ [note answer] })

instance [Environment σ] : Environment (Traced σ) where
  name u := Environment.name u.state
  friendlyName u := Environment.friendlyName u.state
  majorTypes u := Environment.majorTypes u.state
  reset u := { state := Environment.reset u.state, calls := u.calls ++ [.reset] }
  beginEvaluation u := { state := Environment.beginEvaluation u.state, calls := u.calls ++ [.begun] }
  testMatch u := Environment.testMatch u.state
  evaluateEffect t n values :=
    noting (fun answer => .visited ⟨t, n, values, answer⟩) (Environment.evaluateEffect t n values)
  applyResult result effect := noting (.applied result effect) (Environment.applyResult result effect)
  completions t n := noting (fun _ => .completed t n) (Environment.completions t n)
  interpretToken token := do
    let u ← get
    let (text, state) := (Environment.interpretToken token).run u.state
    set ({ state, calls := u.calls ++ [.interpreted token] } : Traced σ)
    return text

/-- The log of the environment. -/
def IsOf (u : Traced σ) (s : σ) : Prop := u.state = s

theorem agree_noting (note : Except Error α → Call) (x : Session σ α) :
    Agree IsOf IsOf (noting note x) x := by
  rintro u _ rfl
  exact ⟨rfl, rfl⟩

variable [Environment σ]

theorem isOf_beginEvaluation (u : Traced σ) (s : σ) (h : IsOf u s) :
    IsOf (Environment.beginEvaluation u) (Environment.beginEvaluation s) :=
  congrArg Environment.beginEvaluation h

/-- The log does not change the evaluation of a match. -/
theorem agree_evaluate (t : MatchTree) (n : NodeId) (overview : Bool) :
    Agree IsOf IsOf (Environment.evaluate t n overview : Session (Traced σ) Text)
      (Environment.evaluate t n overview : Session σ Text) :=
  Session.agree_evaluate isOf_beginEvaluation (fun _ _ => agree_noting _ _) n overview

theorem agree_apply (t : MatchTree) (n : NodeId) :
    Agree IsOf IsOf (Environment.apply t n : Session (Traced σ) Unit)
      (Environment.apply t n : Session σ Unit) :=
  Session.agree_apply isOf_beginEvaluation (fun _ _ => agree_noting _ _)
    (fun _ _ => agree_noting _ _) n

end Traced

end SnippetEngine
