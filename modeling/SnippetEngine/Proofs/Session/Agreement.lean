-- Two runs side by side. Sessions agree if, from states that are related, they have the same
-- outcome and end in states that are related. Agreement goes through sequences of steps, and with
-- it through the rendering of snippets and the evaluation and the application of a match.
import SnippetEngine.Proofs.Outcome
import SnippetEngine.Synthesis

namespace SnippetEngine.Session

variable {σ τ α β : Type}

/-! ## One run -/

/-- What a session answers from a state. -/
def outcome (x : Session σ α) (s : σ) : Except Error α := (x.run.run s).1

/-- The state that a session ends in, also where it fails. -/
def final (x : Session σ α) (s : σ) : σ := (x.run.run s).2

theorem outcome_lift (x : Except Error α) (s : σ) : outcome (liftM x : Session σ α) s = x :=
  congrArg Prod.fst (run_liftM x s)

theorem final_lift (x : Except Error α) (s : σ) : final (liftM x : Session σ α) s = s :=
  congrArg Prod.snd (run_liftM x s)

/-- A step that answers without looking at the state. -/
theorem ok_lift_bind (a : α) (f : α → Session σ β) :
    ((liftM (Except.ok a : Except Error α) : Session σ α) >>= f) = f a := rfl

theorem run_bind_ok {x : Session σ α} {s : σ} {a : α} (f : α → Session σ β)
    (h : outcome x s = .ok a) : (x >>= f).run.run s = (f a).run.run (final x s) :=
  run_bind_of_ok f (Prod.ext h rfl)

theorem run_bind_error {x : Session σ α} {s : σ} {e : Error} (f : α → Session σ β)
    (h : outcome x s = .error e) : (x >>= f).run.run s = (.error e, final x s) :=
  run_bind_of_error f (Prod.ext h rfl)

theorem outcome_bind_ok {x : Session σ α} {s : σ} {a : α} (f : α → Session σ β)
    (h : outcome x s = .ok a) : outcome (x >>= f) s = outcome (f a) (final x s) :=
  congrArg Prod.fst (run_bind_ok f h)

theorem final_bind_ok {x : Session σ α} {s : σ} {a : α} (f : α → Session σ β)
    (h : outcome x s = .ok a) : final (x >>= f) s = final (f a) (final x s) :=
  congrArg Prod.snd (run_bind_ok f h)

theorem outcome_bind_error {x : Session σ α} {s : σ} {e : Error} (f : α → Session σ β)
    (h : outcome x s = .error e) : outcome (x >>= f) s = .error e :=
  congrArg Prod.fst (run_bind_error f h)

theorem final_bind_error {x : Session σ α} {s : σ} {e : Error} (f : α → Session σ β)
    (h : outcome x s = .error e) : final (x >>= f) s = final x s :=
  congrArg Prod.snd (run_bind_error f h)

theorem outcome_bind_pure (x : Session σ α) (f : α → β) (s : σ) :
    outcome (x >>= fun a => pure (f a)) s = (outcome x s).map f := by
  rcases h : outcome x s with e | a
  · exact outcome_bind_error _ h
  · exact outcome_bind_ok _ h

theorem final_bind_pure (x : Session σ α) (f : α → β) (s : σ) :
    final (x >>= fun a => pure (f a)) s = final x s := by
  rcases h : outcome x s with e | a
  · exact final_bind_error _ h
  · exact final_bind_ok _ h

/-- Catching what a session answers: the session runs, and the caught answer is the answer. -/
theorem run_observing (x : Session σ α) (s : σ) :
    (observing x : Session σ (Except Error α)).run.run s = (.ok (outcome x s), final x s) := by
  unfold observing outcome final
  rcases h : x.run.run s with ⟨e | a, s'⟩
  all_goals
    simp only [ExceptT.run, StateT.run] at h
    simp [tryCatch, tryCatchThe, MonadExceptOf.tryCatch, ExceptT.tryCatch, ExceptT.bind,
      ExceptT.bindCont, ExceptT.run, ExceptT.mk, StateT.run, StateT.bind, bind, h]
    rfl

theorem outcome_observing_bind (x : Session σ α) (f : Except Error α → Session σ β) (s : σ) :
    outcome ((observing x : Session σ (Except Error α)) >>= f) s =
      outcome (f (outcome x s)) (final x s) := by
  have hrun := run_observing x s
  rw [outcome_bind_ok f (congrArg Prod.fst hrun)]
  exact congrArg _ (congrArg Prod.snd hrun)

theorem final_observing_bind (x : Session σ α) (f : Except Error α → Session σ β) (s : σ) :
    final ((observing x : Session σ (Except Error α)) >>= f) s =
      final (f (outcome x s)) (final x s) := by
  have hrun := run_observing x s
  rw [final_bind_ok f (congrArg Prod.fst hrun)]
  exact congrArg _ (congrArg Prod.snd hrun)

/-! ## Two runs -/

/-- From states related by `P` both sessions have the same outcome, and they end in states related
by `Q`. -/
def Agree (P Q : σ → τ → Prop) (x : Session σ α) (y : Session τ α) : Prop :=
  ∀ s u, P s u → outcome x s = outcome y u ∧ Q (final x s) (final y u)

variable {P Q : σ → τ → Prop}

theorem agree_pure (a : α) : Agree Q Q (pure a) (pure a) := fun _ _ h => ⟨rfl, h⟩

theorem agree_throw (e : Error) : Agree (α := α) Q Q (throw e) (throw e) := fun _ _ h => ⟨rfl, h⟩

/-- A step that fails or answers without looking at the state. -/
theorem agree_lift (x : Except Error α) : Agree Q Q (liftM x) (liftM x) := by
  intro s u h
  rcases x with e | a
  · exact ⟨rfl, h⟩
  · exact ⟨rfl, h⟩

theorem agree_modify {f : σ → σ} {g : τ → τ} (h : ∀ s u, P s u → Q (f s) (g u)) :
    Agree P Q (modify f) (modify g) := by
  intro s u hp
  exact ⟨rfl, h s u hp⟩

/-- A step that cannot fail. -/
theorem agree_state {x : StateM σ α} {y : StateM τ α}
    (h : ∀ s u, P s u → (x.run s).1 = (y.run u).1 ∧ Q (x.run s).2 (y.run u).2) :
    Agree P Q (liftM x) (liftM y) := by
  intro s u hp
  obtain ⟨hr, hq⟩ := h s u hp
  exact ⟨congrArg Except.ok hr, hq⟩

/-- Steps whose answers look alike, and then steps that agree behind answers that look alike. -/
theorem agree_bind_of_view {γ : Type} (view : α → γ) {x : Session σ α} {y : Session τ α}
    {f : α → Session σ β} {g : α → Session τ β}
    (hx : ∀ s u, P s u →
      (outcome x s).map view = (outcome y u).map view ∧ Q (final x s) (final y u))
    (hfg : ∀ a b, view a = view b → Agree Q Q (f a) (g b)) : Agree P Q (x >>= f) (y >>= g) := by
  intro s u hp
  obtain ⟨hlook, hq⟩ := hx s u hp
  rcases hs : outcome x s with e | a
  · rcases hu : outcome y u with e' | b
    · rw [hs, hu] at hlook
      cases hlook
      rw [outcome_bind_error f hs, outcome_bind_error g hu, final_bind_error f hs,
        final_bind_error g hu]
      exact ⟨rfl, hq⟩
    · rw [hs, hu] at hlook
      cases hlook
  · rcases hu : outcome y u with e' | b
    · rw [hs, hu] at hlook
      cases hlook
    · rw [hs, hu] at hlook
      rw [outcome_bind_ok f hs, outcome_bind_ok g hu, final_bind_ok f hs, final_bind_ok g hu]
      exact hfg a b (Except.ok.inj hlook) _ _ hq

theorem agree_bind {x : Session σ α} {y : Session τ α} {f : α → Session σ β}
    {g : α → Session τ β} (hx : Agree P Q x y) (hf : ∀ a, Agree Q Q (f a) (g a)) :
    Agree P Q (x >>= f) (y >>= g) := by
  apply agree_bind_of_view id
  · intro s u hp
    obtain ⟨hr, hq⟩ := hx s u hp
    exact ⟨congrArg (Except.map id) hr, hq⟩
  · rintro a _ rfl
    exact hf a

/-- Steps that go on with what they see of the states. -/
theorem agree_get {f : σ → Session σ α} {g : τ → Session τ α}
    (h : ∀ s u, P s u → Agree P Q (f s) (g u)) : Agree P Q (get >>= f) (get >>= g) :=
  fun s u hp => h s u hp s u hp

theorem agree_observing {x : Session σ α} {y : Session τ α} (h : Agree P Q x y) :
    Agree P Q (observing x : Session σ (Except Error α)) (observing y) := by
  intro s u hp
  obtain ⟨hr, hq⟩ := h s u hp
  unfold outcome final
  rw [run_observing, run_observing, hr]
  exact ⟨rfl, hq⟩

/-! ## Matches -/

section Matches

open Environment

variable [Environment σ] [Environment τ] {t : MatchTree}

/-- Environments that agree on every application of a tree. -/
def AgreeOn (t : MatchTree) (Q : σ → τ → Prop) : Prop :=
  ∀ n values, Agree Q Q (evaluateEffect t n values : Session σ Text)
    (evaluateEffect t n values : Session τ Text)

mutual

theorem agree_evaluateShape (h : AgreeOn t Q) (overview : Bool) :
    ∀ s : Shape, Agree Q Q (evaluateShape t overview s : Session σ Text)
      (evaluateShape t overview s : Session τ Text)
  | .argument n a => by
    unfold evaluateShape
    exact agree_pure _
  | .application n a children => by
    unfold evaluateShape
    apply agree_bind (agree_evaluateShapes h overview children)
    intro values
    exact h n values

theorem agree_evaluateShapes (h : AgreeOn t Q) (overview : Bool) :
    ∀ ss : List Shape, Agree Q Q (evaluateShapes t overview ss : Session σ (List Text))
      (evaluateShapes t overview ss : Session τ (List Text))
  | [] => by
    unfold evaluateShapes
    exact agree_pure _
  | s :: ss => by
    unfold evaluateShapes
    apply agree_bind (agree_evaluateShape h overview s)
    intro value
    apply agree_bind (agree_evaluateShapes h overview ss)
    intro values
    exact agree_pure _

end

/-- The evaluations agree if beginning one relates the states. -/
theorem agree_evaluate (hbegin : ∀ s u, P s u → Q (beginEvaluation s) (beginEvaluation u))
    (h : AgreeOn t Q) (n : NodeId) (overview : Bool) :
    Agree P Q (evaluate t n overview : Session σ Text) (evaluate t n overview : Session τ Text) := by
  unfold evaluate
  apply agree_bind (agree_modify hbegin)
  intro _
  apply agree_bind (agree_lift _)
  intro s
  exact agree_evaluateShape h overview s

/-- The applications agree if they take results alike. -/
theorem agree_apply (hbegin : ∀ s u, P s u → Q (beginEvaluation s) (beginEvaluation u))
    (h : AgreeOn t Q)
    (htake : ∀ result effect, Agree Q Q (applyResult result effect : Session σ Unit)
      (applyResult result effect : Session τ Unit)) (n : NodeId) :
    Agree P Q (apply t n : Session σ Unit) (apply t n : Session τ Unit) := by
  unfold apply
  apply agree_bind (agree_evaluate hbegin h n false)
  intro result
  apply agree_bind (agree_lift _)
  intro application
  exact htake result _

end Matches

/-! ## Evaluators -/

section Evaluators

open Evaluator

variable {ε δ : Type} {R : ε → δ → Prop}

/-- Sessions with the same snippets on evaluators that are related. -/
def SameCache (R : ε → δ → Prop) (s : Synthesizer ε) (u : Synthesizer δ) : Prop :=
  s.cache = u.cache ∧ R s.evaluator u.evaluator

theorem agree_snippet (e : SharedEffect) :
    Agree (SameCache R) (SameCache R) (Synthesizer.snippet e) (Synthesizer.snippet e) := by
  rintro s u ⟨hcache, hevaluator⟩
  have hcached : s.cached? e.effect.id = u.cached? e.effect.id := by
    unfold Synthesizer.cached?
    rw [hcache]
  unfold outcome final Synthesizer.snippet
  rw [run_get_bind, run_get_bind, hcached, hcache]
  rcases u.cached? e.effect.id with _ | found
  · rcases Snippet.compile e with err | new
    · exact ⟨rfl, hcache, hevaluator⟩
    · exact ⟨rfl, rfl, hevaluator⟩
  · exact ⟨rfl, hcache, hevaluator⟩

variable [Evaluator ε] [Evaluator δ]

/-- Evaluators that agree on every piece of a snippet. -/
structure AgreeOnPieces (R : ε → δ → Prop) : Prop where
  formula : ∀ site scope f, Agree R R (evaluateFormula site scope f : Session ε Text)
    (evaluateFormula site scope f : Session δ Text)
  text : ∀ site scope t, Agree R R (evaluateText site scope t : Session ε Text)
    (evaluateText site scope t : Session δ Text)

theorem AgreeOnPieces.render (h : AgreeOnPieces R) (t : MatchTree) (n : NodeId) (a : Application)
    (scope : Bindings) (snippet : Snippet) :
    Agree R R (Evaluator.render t n a scope snippet : Session ε Text)
      (Evaluator.render t n a scope snippet : Session δ Text) := by
  have hpiece : ∀ site scope piece, Agree R R
      (evaluatePiece site scope piece : Session ε (Text × Bindings))
      (evaluatePiece site scope piece : Session δ (Text × Bindings)) := by
    intro site scope piece
    unfold evaluatePiece
    split
    · apply agree_bind (h.text site scope _)
      intro _
      exact agree_pure _
    · apply agree_bind (h.formula site scope _)
      intro value
      split
      · exact agree_pure _
      · exact agree_pure _
  induction snippet generalizing scope with
  | nil => exact agree_pure []
  | cons s ss ih =>
    unfold Evaluator.render
    apply agree_bind (hpiece _ scope s.piece)
    intro result
    apply agree_bind (ih result.2)
    intro rest
    exact agree_pure _

theorem AgreeOnPieces.agreeOn (h : AgreeOnPieces R) (t : MatchTree) : AgreeOn t (SameCache R) := by
  intro n values
  change Agree _ _ (Synthesizer.evaluateEffect t n values) (Synthesizer.evaluateEffect t n values)
  unfold Synthesizer.evaluateEffect
  apply agree_bind (agree_lift _)
  rintro (_ | a)
  · exact agree_throw _
  · apply agree_bind (agree_snippet a.effect)
    intro found
    apply agree_bind
    · rintro s u ⟨hcache, hevaluator⟩
      obtain ⟨hout, hfinal⟩ := h.render t n a _ found _ _ hevaluator
      exact ⟨hout, hcache, hfinal⟩
    · intro text
      exact agree_pure _

end Evaluators

end SnippetEngine.Session
