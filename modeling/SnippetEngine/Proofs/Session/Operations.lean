-- Operations on a session over a document. Each of them edits the selection or the declared
-- variables, or leaves both as they are. Besides, it gathers, and it may write or discard a result.
import SnippetEngine.Proofs.Document.Requests
import SnippetEngine.Proofs.Session.Cache

namespace SnippetEngine

open Session

/-! ## Operations -/

inductive Operation
  | declare (name type : Text)
  | select (selection : Selection)
  | compile (effect : SharedEffect)
  | evaluate (t : MatchTree) (n : NodeId) (asOverview : Bool)
  | evaluateEffect (t : MatchTree) (n : NodeId) (values : List Text)
  | apply (t : MatchTree) (n : NodeId)
  | applyResult (result : Text) (effect : Option Effect)
  | overview (t : MatchTree) (n : NodeId)
  | testMatch (t : MatchTree) (n : NodeId)
  | completions (t : MatchTree) (n : NodeId)
  | reset

inductive Answer
  | done
  | text (text : Text)
  | texts (texts : List Text)
  | verdict (isValid : Bool)
  | snippet (snippet : Snippet)

namespace Operation

/-- What an operation does to a session, and what it answers. -/
def perform : Operation → Session (Synthesizer Document) Answer
  | declare name type => do
    modify fun s => { s with evaluator := s.evaluator.declare name type }
    return .done
  | select selection => do
    modify fun s => { s with evaluator := s.evaluator.select selection }
    return .done
  | compile e => return .snippet (← Synthesizer.snippet e)
  | evaluate t n asOverview => return .text (← Environment.evaluate t n asOverview)
  | evaluateEffect t n values => return .text (← Environment.evaluateEffect t n values)
  | apply t n => do
    Environment.apply t n
    return .done
  | applyResult result effect => do
    Environment.applyResult result effect
    return .done
  | overview t n => return .text (← Document.overview t n)
  | testMatch t n => return .verdict (← Environment.testMatch (← get) t n)
  | completions t n => return .texts (← Environment.completions t n)
  | reset => do
    modify Environment.reset
    return .done

/-- The session after the operations, also where some of them failed. -/
def after (history : List Operation) (s : Synthesizer Document) : Synthesizer Document :=
  history.foldl (fun s o => final o.perform s) s

/-- What an operation changes besides results and gathered things. -/
def edit : Operation → Document → Document
  | declare name type, d => d.declare name type
  | select selection, d => d.select selection
  | _, d => d

/-- A session over a new document. -/
def opening (text : Text) (config : Config) : Synthesizer Document :=
  { evaluator := Document.ofText text config }

/-! ## Effects -/

/-- The effects of the matches that an operation works on. -/
def Mentions : Operation → SharedEffect → Prop
  | compile e, f => f = e
  | evaluate t _ _, e | evaluateEffect t _ _, e | apply t _, e | overview t _, e
  | testMatch t _, e | completions t _, e => t.Mentions e
  | _, _ => False

/-- The effects of the matches that the operations work on. -/
def MentionedIn (history : List Operation) (e : SharedEffect) : Prop := ∃ o ∈ history, o.Mentions e

theorem mentionedIn_append {history later : List Operation} {e : SharedEffect} :
    MentionedIn (history ++ later) e ↔ MentionedIn history e ∨ MentionedIn later e := by
  unfold MentionedIn
  simp only [List.mem_append, or_and_right, exists_or]

/-- The effects of the applications in the matches that an operation works on. -/
def effects : Operation → List SharedEffect
  | compile e => [e]
  | evaluate t _ _ | evaluateEffect t _ _ | apply t _ | overview t _ | testMatch t _
  | completions t _ => t.effects
  | _ => []

theorem mem_effects {o : Operation} {e : SharedEffect} (h : o.Mentions e) : e ∈ o.effects := by
  cases o with
  | compile f => exact List.mem_singleton.mpr h
  | evaluate | evaluateEffect | apply | overview | testMatch | completions =>
    exact MatchTree.mem_effects h
  | declare | select | applyResult | reset => cases h

theorem coherent_of_effects {history : List Operation}
    (h : ∀ e ∈ history.flatMap effects, ∀ f ∈ history.flatMap effects,
      e.effect.id = f.effect.id → e.effect.code = f.effect.code) : Coherent (MentionedIn history) := by
  have hmem : ∀ e, MentionedIn history e → e ∈ history.flatMap effects := by
    rintro e ⟨o, ho, he⟩
    exact List.mem_flatMap.mpr ⟨o, ho, mem_effects he⟩
  exact fun e f he hf => h e (hmem e he) f (hmem f hf)

theorem caches_opening (text : Text) (config : Config) (E : SharedEffect → Prop) :
    (opening text config).Caches E := by
  intro entry hentry
  cases hentry

/-! ## What an operation makes of a document -/

theorem final_overview (t : MatchTree) (n : NodeId) (s : Synthesizer Document) :
    final (Document.overview t n) s =
      { final (Environment.evaluate t n true) s with
        evaluator := (final (Environment.evaluate t n true) s).evaluator.forget } := by
  unfold Document.overview
  rw [final_observing_bind]
  rcases outcome (Environment.evaluate t n true) s with e | rendered
  · rfl
  · rcases t.application? n with e | application
    · rfl
    · rfl

theorem final_testMatch (t : MatchTree) (n : NodeId) (s : Synthesizer Document) :
    final (perform (.testMatch t n)) s = s := by
  unfold perform final
  rw [run_get_bind]
  rcases Environment.testMatch s t n with e | isValid
  · rfl
  · rfl

end Operation

/-- What an operation makes of a document, if formulas keep the property of the gathered things. -/
inductive Document.Becomes (I : Gathered → Prop) (d : Document) : Document → Prop
  | kept {g : Gathered} (hg : I g) : Becomes I d { d with gathered := g }
  | applied {g : Gathered} (hg : I g) (before after result : Text) :
    Becomes I d (write { d with gathered := g }
      (insert { d with gathered := g } before after result))
  | discarded : Becomes I d d.reset

namespace Document

variable {I : Gathered → Prop} {d e : Document}

theorem Becomes.touched (h : Becomes I d e) : Touched d e := by
  cases h with
  | kept => exact ⟨rfl, rfl, rfl, rfl⟩
  | applied => exact ⟨rfl, rfl, rfl, rfl⟩
  | discarded => exact ⟨rfl, rfl, rfl, rfl⟩

theorem becomes_applyResult (h : Gathers I d e) (result : Text) (effect : Option Effect) :
    Becomes I d (final (applyResult result effect) e) := by
  obtain ⟨g, rfl, hg⟩ := h
  unfold final
  rw [run_applyResult]
  rcases checkTarget effect with err | _
  · exact .kept hg
  · rcases around? { d with gathered := g } with _ | ⟨before, after⟩
    · exact .kept hg
    · exact .applied hg before after result

end Document

namespace Operation

variable {I : Gathered → Prop}

theorem becomes_apply (hI : Gathered.IsKept I) (hnil : I {}) (t : MatchTree) (n : NodeId)
    (s : Synthesizer Document) :
    s.evaluator.Becomes I (final (Environment.apply t n) s).evaluator := by
  have hgathers := Synthesizer.evaluate_gathers hI hnil t n false s
  have hkept : s.evaluator.Becomes I (final (Environment.evaluate t n false) s).evaluator := by
    obtain ⟨g, hdoc, hg⟩ := hgathers
    rw [hdoc]
    exact .kept hg
  unfold Environment.apply
  rcases hr : outcome (Environment.evaluate t n false) s with e | result
  · rw [final_bind_error _ hr]
    exact hkept
  · rw [final_bind_ok _ hr]
    rcases t.application? n with e | application
    · exact hkept
    · exact Document.becomes_applyResult hgathers result _

/-- An operation edits the document, and then gathers, applies a result or discards one. -/
theorem perform_becomes (hI : Gathered.IsKept I) (hnil : I {}) (o : Operation)
    {s : Synthesizer Document} (hs : I s.evaluator.gathered) :
    (o.edit s.evaluator).Becomes I (final o.perform s).evaluator := by
  cases o with
  | declare name type => exact .kept hs
  | select selection => exact .kept hs
  | compile e =>
    have hsame : (final (Synthesizer.snippet e) s).evaluator = s.evaluator :=
      (Synthesizer.ensures_snippet (I := (· = s.evaluator)) e s rfl).1
    rw [perform, final_bind_pure, hsame]
    exact .kept hs
  | evaluate t n asOverview =>
    obtain ⟨g, hdoc, hg⟩ := Synthesizer.evaluate_gathers hI hnil t n asOverview s
    rw [perform, final_bind_pure, hdoc]
    exact .kept hg
  | evaluateEffect t n values =>
    obtain ⟨g, hdoc, hg⟩ := Synthesizer.evaluateEffect_gathers hI t n values hs
    rw [perform, final_bind_pure]
    change Document.Becomes I _ (final (Synthesizer.evaluateEffect t n values) s).evaluator
    rw [hdoc]
    exact .kept hg
  | apply t n =>
    rw [perform, final_bind_pure]
    exact becomes_apply hI hnil t n s
  | applyResult result effect =>
    rw [perform, final_bind_pure]
    exact Document.becomes_applyResult ⟨_, rfl, hs⟩ result effect
  | overview t n =>
    obtain ⟨g, hdoc, -⟩ := Synthesizer.evaluate_gathers hI hnil t n true s
    rw [perform, final_bind_pure, final_overview, hdoc]
    exact .kept hnil
  | testMatch t n =>
    rw [final_testMatch]
    exact .kept hs
  | completions t n =>
    have hsame : final (Document.completions t n) s.evaluator = s.evaluator :=
      congrArg Prod.snd (Document.run_completions t n s.evaluator)
    rw [perform, final_bind_pure]
    change Document.Becomes I _ (final (Document.completions t n) s.evaluator)
    rw [hsame]
    exact .kept hs
  | reset => exact .discarded

end Operation

end SnippetEngine
