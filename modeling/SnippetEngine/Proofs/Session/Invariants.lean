-- What a session keeps. From a state with an invariant a session ends in a state with it, also
-- where it fails, and what it answers has a property. This goes through sequences of steps, and with
-- it through the rendering of snippets and the evaluation of a match: the steps of a walk meet no
-- other texts than the typed ones and what earlier steps have answered.
import SnippetEngine.Proofs.Match.Nodes
import SnippetEngine.Proofs.Session.Agreement
import SnippetEngine.Synthesis

namespace SnippetEngine

/-! ## Texts that are bound -/

namespace Bindings

theorem mem_values_bind {bs : Bindings} {name text value : Text}
    (h : value ∈ (bs.bind name text).values) : value = text ∨ value ∈ bs.values := by
  induction bs with
  | nil => exact .inl (List.mem_singleton.mp h)
  | cons b bs ih =>
    unfold bind at h
    split at h
    · exact (List.mem_cons.mp h).imp_right (List.mem_cons_of_mem _)
    · rcases List.mem_cons.mp h with rfl | hrest
      · exact .inr List.mem_cons_self
      · exact (ih hrest).imp_right (List.mem_cons_of_mem _)

theorem mem_values_ofList {pairs : List (Text × Text)} {value : Text}
    (h : value ∈ (ofList pairs).values) : value ∈ pairs.map Prod.snd := by
  rw [ofList_eq_foldl] at h
  suffices ∀ bs : Bindings, value ∈ values (pairs.foldl (fun bs p => bind p.1 p.2 bs) bs) →
      value ∈ bs.values ∨ value ∈ pairs.map Prod.snd from
    (this [] h).resolve_left fun hnil => nomatch hnil
  clear h
  induction pairs with
  | nil => exact fun _ => .inl
  | cons p pairs ih =>
    intro bs h
    rcases ih _ h with hfirst | hrest
    · rcases mem_values_bind hfirst with rfl | hold
      · exact .inr List.mem_cons_self
      · exact .inl hold
    · exact .inr (List.mem_cons_of_mem _ hrest)

theorem mem_values_of_value? {bs : Bindings} {name value : Text}
    (h : bs.value? name = some value) : value ∈ bs.values := by
  unfold value? at h
  obtain ⟨b, hb, rfl⟩ := Option.map_eq_some_iff.mp h
  exact List.mem_map_of_mem (List.mem_of_find?_eq_some hb)

end Bindings

namespace Session

variable {σ α β : Type}

/-- From a state with the property `P` the session ends in one with it, and what it answers has the
property `Q`. -/
def Ensures (P : σ → Prop) (x : Session σ α) (Q : α → Prop) : Prop :=
  ∀ s, P s → P (final x s) ∧ ∀ a, outcome x s = .ok a → Q a

variable {P : σ → Prop} {Q : α → Prop} {R : β → Prop}

theorem ensures_pure {a : α} (h : Q a) : Ensures P (pure a) Q :=
  fun _ hs => ⟨hs, fun _ ha => Except.ok.inj ha ▸ h⟩

theorem ensures_throw (e : Error) : Ensures P (throw e) Q :=
  fun _ hs => ⟨hs, fun _ ha => nomatch ha⟩

/-- A step that fails or answers without looking at the state. -/
theorem ensures_lift {x : Except Error α} (h : ∀ a, x = .ok a → Q a) : Ensures P (liftM x) Q := by
  intro s hs
  rcases x with e | a
  · exact ⟨hs, fun _ ha => nomatch ha⟩
  · exact ⟨hs, fun _ ha => Except.ok.inj ha ▸ h a rfl⟩

/-- A step that cannot fail. -/
theorem ensures_state {x : StateM σ α} (h : ∀ s, P s → P (x.run s).2 ∧ Q (x.run s).1) :
    Ensures P (liftM x) Q := by
  intro s hs
  obtain ⟨hp, hq⟩ := h s hs
  exact ⟨hp, fun _ ha => Except.ok.inj ha ▸ hq⟩

theorem ensures_bind {x : Session σ α} {f : α → Session σ β} (hx : Ensures P x Q)
    (hf : ∀ a, Q a → Ensures P (f a) R) : Ensures P (x >>= f) R := by
  intro s hs
  obtain ⟨hp, hq⟩ := hx s hs
  rcases ha : outcome x s with e | a
  · rw [final_bind_error f ha, outcome_bind_error f ha]
    exact ⟨hp, fun _ hb => nomatch hb⟩
  · rw [final_bind_ok f ha, outcome_bind_ok f ha]
    exact hf a (hq a ha) _ hp

/-! ## The rendering of a snippet -/

section Render

open Evaluator

variable {ε : Type} [Evaluator ε] {P : ε → Prop} {Q : Text → Prop}

/-- A snippet is rendered from texts that its pieces answer. -/
theorem ensures_render {t : MatchTree} {n : NodeId} {a : Application} {snippet : Snippet}
    (hformula : ∀ s ∈ snippet, ∀ f, s.piece = .formula f → ∀ scope : Bindings,
      (∀ v ∈ scope.values, Q v) → Ensures P (evaluateFormula ⟨t, n, a, s.effect⟩ scope f) Q)
    (htext : ∀ s ∈ snippet, ∀ text, s.piece = .text text → ∀ scope : Bindings,
      Ensures P (evaluateText ⟨t, n, a, s.effect⟩ scope text) Q)
    (hnil : Q []) (happend : ∀ s t, Q s → Q t → Q (s ++ t)) {scope : Bindings}
    (hscope : ∀ v ∈ scope.values, Q v) : Ensures P (render t n a scope snippet) Q := by
  induction snippet generalizing scope with
  | nil => exact ensures_pure hnil
  | cons s ss ih =>
    have hpiece : Ensures P (evaluatePiece ⟨t, n, a, s.effect⟩ scope s.piece)
        fun r => Q r.1 ∧ ∀ v ∈ r.2.values, Q v := by
      unfold evaluatePiece
      rcases hp : s.piece with literal | f
      · apply ensures_bind (htext s List.mem_cons_self literal hp scope)
        exact fun text ht => ensures_pure ⟨ht, hscope⟩
      · apply ensures_bind (hformula s List.mem_cons_self f hp scope hscope)
        intro value hvalue
        split
        · refine ensures_pure ⟨hvalue, fun v hv => ?_⟩
          rcases Bindings.mem_values_bind hv with rfl | hold
          · exact hvalue
          · exact hscope v hold
        · exact ensures_pure ⟨hvalue, hscope⟩
    unfold render
    apply ensures_bind hpiece
    rintro ⟨text, scope'⟩ ⟨htext', hscope'⟩
    apply ensures_bind (ih (fun s hs => hformula s (List.mem_cons_of_mem _ hs))
      (fun s hs => htext s (List.mem_cons_of_mem _ hs)) hscope')
    exact fun rest hrest => ensures_pure (happend _ _ htext' hrest)

end Render

/-! ## The evaluation of a match -/

section Matches

open Environment

variable [Environment σ] {t : MatchTree} {overview : Bool} {Q : Text → Prop}

mutual

theorem ensures_evaluateShape
    (heffect : ∀ n values, (∀ v ∈ values, Q v) →
      Ensures P (evaluateEffect t n values : Session σ Text) Q) :
    ∀ s : Shape, (∀ na ∈ s.arguments, Q (na.2.value overview)) →
      Ensures P (evaluateShape t overview s : Session σ Text) Q
  | .argument n a, harguments => by
    unfold evaluateShape
    exact ensures_pure (harguments (n, a) (List.mem_singleton_self _))
  | .application n a children, harguments => by
    unfold evaluateShape
    apply ensures_bind (ensures_evaluateShapes heffect children harguments)
    exact fun values hvalues => heffect n values hvalues

theorem ensures_evaluateShapes
    (heffect : ∀ n values, (∀ v ∈ values, Q v) →
      Ensures P (evaluateEffect t n values : Session σ Text) Q) :
    ∀ ss : List Shape, (∀ na ∈ Shape.argumentsOfAll ss, Q (na.2.value overview)) →
      Ensures P (evaluateShapes t overview ss : Session σ (List Text)) fun vs => ∀ v ∈ vs, Q v
  | [], _ => by
    unfold evaluateShapes
    exact ensures_pure fun _ hv => nomatch hv
  | s :: ss, harguments => by
    have hs := ensures_evaluateShape heffect s fun na hna =>
      harguments na (List.mem_append_left _ hna)
    have hss := ensures_evaluateShapes heffect ss fun na hna =>
      harguments na (List.mem_append_right _ hna)
    unfold evaluateShapes
    apply ensures_bind hs
    intro value hvalue
    apply ensures_bind hss
    exact fun values hvalues => ensures_pure (List.forall_mem_cons.mpr ⟨hvalue, hvalues⟩)

end

/-- An evaluation keeps what holds when it begins. -/
theorem evaluate_ensures {n : NodeId}
    (heffect : ∀ n values, (∀ v ∈ values, Q v) →
      Ensures P (evaluateEffect t n values : Session σ Text) Q)
    (harguments : ∀ s, t.shape? n = some s → ∀ na ∈ s.arguments, Q (na.2.value overview)) {s : σ}
    (hs : P (beginEvaluation s)) :
    P (final (evaluate t n overview) s) ∧ ∀ a, outcome (evaluate t n overview) s = .ok a → Q a := by
  have hshape : ∀ a, t.shape n = .ok a → t.shape? n = some a := by
    intro a ha
    unfold MatchTree.shape at ha
    rcases hs : t.shape? n with _ | s
    · rw [hs] at ha
      cases ha
    · rw [hs] at ha
      exact congrArg some (Except.ok.inj ha)
  have hrest : Ensures P (do
      let s ← t.shape n
      evaluateShape t overview s : Session σ Text) Q := by
    apply ensures_bind (ensures_lift hshape)
    exact fun a ha => ensures_evaluateShape heffect a (harguments a ha)
  exact hrest _ hs

end Matches

end Session

/-! ## Sessions over evaluators -/

namespace Synthesizer

open Session

variable {ε : Type} {P : Synthesizer ε → Prop} {Q : Text → Prop}

/-- A step of the evaluator alone, in a session of which other things are known. -/
theorem ensures_onEvaluator {α : Type} {x : Session ε α} {R : α → Prop} {I : ε → Prop}
    (hx : Ensures I x R) (hget : ∀ s, P s → I s.evaluator)
    (hset : ∀ s e, P s → I e → P { s with evaluator := e }) : Ensures P (onEvaluator x) R := by
  intro s hs
  obtain ⟨hI, hR⟩ := hx s.evaluator (hget s hs)
  exact ⟨hset s _ hs hI, hR⟩

/-- A request for a snippet does nothing to the evaluator. -/
theorem ensures_snippet {I : ε → Prop} (e : SharedEffect) :
    Ensures (fun s => I s.evaluator) (snippet e) fun _ => True := by
  intro s hs
  refine ⟨?_, fun _ _ => trivial⟩
  unfold final snippet
  rw [run_get_bind]
  rcases s.cached? e.effect.id with _ | found
  · rcases Snippet.compile e with err | new
    · exact hs
    · exact hs
  · exact hs

variable [Evaluator ε]

/-- The value of an application is trimmed from what its snippet is rendered to. -/
theorem ensures_evaluateEffect {t : MatchTree} {S : Snippet → Prop} {n : NodeId}
    {values : List Text} (hvalues : ∀ v ∈ values, Q v)
    (hsnippet : ∀ a, t.Applies n a → Ensures P (snippet a.effect) S)
    (hrender : ∀ a, t.Applies n a → ∀ found scope, S found → (∀ v ∈ Bindings.values scope, Q v) →
      Ensures P (onEvaluator (Evaluator.render t n a scope found)) Q)
    (htrim : ∀ text, Q text → Q (Text.trim text)) : Ensures P (evaluateEffect t n values) Q := by
  unfold evaluateEffect
  apply ensures_bind (ensures_lift fun application happlication => happlication)
  rintro (_ | a) ha
  · exact ensures_throw _
  · have happlies := MatchTree.application?_eq_some.mp ha
    apply ensures_bind (hsnippet a happlies)
    intro found hfound
    apply ensures_bind (hrender a happlies found _ hfound fun v hv => ?_)
    · exact fun text htext => ensures_pure (htrim text htext)
    · obtain ⟨p, hp, rfl⟩ := List.mem_map.mp (Bindings.mem_values_ofList hv)
      exact hvalues _ (List.of_mem_zip hp).2

section Keeps

variable {I : ε → Prop}
  (hformula : ∀ site scope f, Ensures I (Evaluator.evaluateFormula site scope f) fun _ => True)
  (htext : ∀ site scope text, Ensures I (Evaluator.evaluateText site scope text) fun _ => True)

include hformula htext

/-- The value of an application keeps what each piece keeps of the evaluator. -/
theorem evaluateEffect_keeps (t : MatchTree) (n : NodeId) (values : List Text) :
    Ensures (fun s : Synthesizer ε => I s.evaluator) (evaluateEffect t n values) fun _ => True := by
  apply ensures_evaluateEffect (Q := fun _ => True) (fun _ _ => trivial) (S := fun _ => True)
  · exact fun a _ => ensures_snippet a.effect
  · intro a _ found scope _ _
    apply ensures_onEvaluator (I := I)
    · exact ensures_render (fun _ _ f _ scope _ => hformula _ scope f)
        (fun _ _ text _ scope => htext _ scope text) trivial (fun _ _ _ _ => trivial)
        fun _ _ => trivial
    · exact fun _ hs => hs
    · exact fun _ _ _ he => he
  · exact fun _ _ => trivial

/-- An evaluation keeps what each piece keeps of the evaluator. -/
theorem evaluate_keeps (t : MatchTree) (n : NodeId) (overview : Bool) {s : Synthesizer ε}
    (hs : I (Evaluator.beginEvaluation s.evaluator)) :
    I (final (Environment.evaluate t n overview) s).evaluator :=
  (evaluate_ensures (P := fun s : Synthesizer ε => I s.evaluator) (Q := fun _ => True)
    (fun n values _ => evaluateEffect_keeps hformula htext t n values)
    (fun _ _ _ _ => trivial) hs).1

end Keeps

end Synthesizer

end SnippetEngine
