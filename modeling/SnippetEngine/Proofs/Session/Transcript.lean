-- What a session answers from its first operation to its last. Where effects with one id have one
-- code, it answers like a document that compiles the code of an effect at each request, and leaves
-- the same document. So the cache cannot be seen.
import SnippetEngine.Proofs.Outcome
import SnippetEngine.Proofs.Session.Entries
import SnippetEngine.Proofs.Session.Operations

namespace SnippetEngine

open Session Text

/-! ## Runs -/

/-- The answer with nothing of the effects of a snippet but their ids. -/
def Answer.plain : Answer → Answer
  | .snippet found =>
    .snippet (found.map fun s => { s with effect := ⟨0, { id := s.effect.effect.id }⟩ })
  | answer => answer

theorem Answer.plain_snippet {found new : Snippet} (h : found.outline = new.outline) :
    (Answer.snippet found).plain = (Answer.snippet new).plain := by
  have hplain : ∀ s : Snippet, (Answer.snippet s).plain =
      .snippet (s.outline.map fun p => ⟨⟨0, { id := p.1 }⟩, p.2⟩) := by
    intro s
    unfold Answer.plain Snippet.outline
    rw [List.map_map]
    rfl
  rw [hplain, hplain, h]

namespace Operation

section Runs

variable {σ : Type} (perform : Operation → Session σ Answer)

/-- The operations, each with what it answers. -/
def answers : List Operation → σ → List (Operation × Except Error Answer)
  | [], _ => []
  | o :: os, s => (o, (outcome (perform o) s).map Answer.plain) :: answers os (final (perform o) s)

def stateAfter (history : List Operation) (s : σ) : σ :=
  history.foldl (fun s o => final (perform o) s) s

theorem stateAfter_append (history later : List Operation) (s : σ) :
    stateAfter perform (history ++ later) s =
      stateAfter perform later (stateAfter perform history s) := List.foldl_append

end Runs

end Operation

/-! ## Documents without a cache -/

/-- An overview for which the code of effects is compiled at each request. -/
def Document.overviewAfresh (t : MatchTree) (n : NodeId) : Session Document Text := do
  let evaluated ← observing (Environment.evaluate t n true)
  modify Document.forget
  let rendered ← evaluated
  let marker := (← get).config.cursorMarker
  return replaceAll marker [] rendered ++ helperNote (← t.application? n)

namespace Operation

/-- What an operation does to a document that keeps no snippets, and what it answers. -/
def performAfresh : Operation → Session Document Answer
  | declare name type => do
    modify (·.declare name type)
    return .done
  | select selection => do
    modify (·.select selection)
    return .done
  | compile e => return .snippet (← Snippet.compile e)
  | evaluate t n asOverview => return .text (← Environment.evaluate t n asOverview)
  | evaluateEffect t n values => return .text (← Environment.evaluateEffect t n values)
  | apply t n => do
    Environment.apply t n
    return .done
  | applyResult result effect => do
    Environment.applyResult result effect
    return .done
  | overview t n => return .text (← Document.overviewAfresh t n)
  | testMatch t n => return .verdict (← Environment.testMatch (← get) t n)
  | completions t n => return .texts (← Environment.completions t n)
  | reset => do
    modify Environment.reset
    return .done

variable {E : SharedEffect → Prop}

/-! ## One operation -/

open Synthesizer in
theorem agree_overview (hE : Coherent E) {t : MatchTree} (ht : ∀ e, t.Mentions e → E e)
    (n : NodeId) :
    Agree (Mirrors E) (Mirrors E) (Document.overview t n) (Document.overviewAfresh t n) := by
  unfold Document.overview Document.overviewAfresh
  apply agree_bind (agree_observing (agree_evaluate_document hE ht n true))
  intro evaluated
  apply agree_bind (agree_change fun _ => rfl)
  intro _
  apply agree_bind (agree_lift _)
  intro rendered
  apply agree_get
  rintro s _ ⟨_, rfl⟩
  apply agree_bind (agree_lift _)
  intro application
  exact agree_pure _

open Synthesizer in
/-- An operation answers and edits as if nothing were cached. -/
theorem perform_mirrors (hE : Coherent E) {o : Operation} (ho : ∀ e, o.Mentions e → E e)
    {s : Synthesizer Document} {d : Document} (h : Mirrors E s d) :
    (outcome o.perform s).map Answer.plain = (outcome o.performAfresh d).map Answer.plain ∧
      Mirrors E (final o.perform s) (final o.performAfresh d) := by
  have hplain : Agree (Mirrors E) (Mirrors E) o.perform o.performAfresh →
      (outcome o.perform s).map Answer.plain = (outcome o.performAfresh d).map Answer.plain ∧
        Mirrors E (final o.perform s) (final o.performAfresh d) := by
    intro hagree
    obtain ⟨hout, hfinal⟩ := hagree s d h
    exact ⟨congrArg _ hout, hfinal⟩
  cases o with
  | declare name type =>
    exact hplain (agree_bind (agree_change fun _ => rfl) fun _ => agree_pure _)
  | select selection =>
    exact hplain (agree_bind (agree_change fun _ => rfl) fun _ => agree_pure _)
  | compile e =>
    -- a snippet from the cache may be of another effect with that id
    obtain ⟨hlook, hfinal⟩ := snippet_mirrors hE (ho e rfl) h
    rw [perform, performAfresh, outcome_bind_pure, final_bind_pure, outcome_bind_pure,
      final_bind_pure, outcome_lift, final_lift, map_map, map_map]
    exact ⟨map_eq_map (fun _ _ => Answer.plain_snippet) hlook, hfinal⟩
  | evaluate t n asOverview =>
    exact hplain (agree_bind (agree_evaluate_document hE ho n asOverview) fun _ => agree_pure _)
  | evaluateEffect t n values =>
    exact hplain (agree_bind (agree_evaluateEffect hE ho n values) fun _ => agree_pure _)
  | apply t n =>
    exact hplain (agree_bind (agree_apply_document hE ho n) fun _ => agree_pure _)
  | applyResult result effect =>
    exact hplain (agree_bind (agree_onEvaluator _) fun _ => agree_pure _)
  | overview t n => exact hplain (agree_bind (agree_overview hE ho n) fun _ => agree_pure _)
  | testMatch t n =>
    apply hplain
    apply agree_get
    rintro s _ ⟨_, rfl⟩
    exact agree_bind (agree_lift _) fun _ => agree_pure _
  | completions t n =>
    exact hplain (agree_bind (agree_onEvaluator _) fun _ => agree_pure _)
  | reset => exact hplain (agree_bind (agree_change fun _ => rfl) fun _ => agree_pure _)

/-! ## Whole sessions -/

theorem answers_mirrors (hE : Coherent E) {history : List Operation}
    (hh : ∀ e, MentionedIn history e → E e) {s : Synthesizer Document} {d : Document}
    (h : Synthesizer.Mirrors E s d) :
    answers perform history s = answers performAfresh history d ∧
      Synthesizer.Mirrors E (after history s) (stateAfter performAfresh history d) := by
  induction history generalizing s d with
  | nil => exact ⟨rfl, h⟩
  | cons o os ih =>
    obtain ⟨hout, hfinal⟩ := perform_mirrors hE (fun e he => hh e ⟨o, List.mem_cons_self, he⟩) h
    have hrest : ∀ e, MentionedIn os e → E e := by
      rintro e ⟨o', ho', he⟩
      exact hh e ⟨o', List.mem_cons_of_mem o ho', he⟩
    obtain ⟨hanswers, hend⟩ := ih hrest hfinal
    refine ⟨?_, hend⟩
    unfold answers
    rw [hout, hanswers]

/-- Sessions on one document answer alike, whatever they have cached of the effects. -/
theorem answers_congr (hE : Coherent E) {history : List Operation}
    (hh : ∀ e, MentionedIn history e → E e) {s u : Synthesizer Document} (hs : s.Caches E)
    (hu : u.Caches E) (hsame : s.evaluator = u.evaluator) :
    answers perform history s = answers perform history u ∧
      (after history s).evaluator = (after history u).evaluator := by
  obtain ⟨hanswers, -, hend⟩ := answers_mirrors hE hh ⟨hs, hsame⟩
  obtain ⟨hanswers', -, hend'⟩ := answers_mirrors hE hh ⟨hu, rfl⟩
  exact ⟨hanswers.trans hanswers'.symm, hend.trans hend'.symm⟩

theorem answers_opening {history : List Operation} (hE : Coherent (MentionedIn history))
    (text : Text) (config : Config) :
    answers perform history (opening text config) =
        answers performAfresh history (.ofText text config) ∧
      (after history (opening text config)).evaluator =
        stateAfter performAfresh history (.ofText text config) := by
  obtain ⟨hanswers, _, hdoc⟩ := answers_mirrors (s := opening text config) hE (fun _ he => he)
    ⟨caches_opening text config _, rfl⟩
  exact ⟨hanswers, hdoc⟩

/-! ## What the cache has to do with it -/

section Steps

open Synthesizer

def steps : Operation → List (Step Document)
  | declare name type => [.change (·.declare name type)]
  | select selection => [.change (·.select selection)]
  | compile e => [.compile e]
  | evaluate t n asOverview => [.evaluate t n asOverview]
  | evaluateEffect t n values => [.evaluateEffect t n values]
  | apply t n => [.apply t n]
  | applyResult result effect => [.change (final (Document.applyResult result effect))]
  | overview t n => [.evaluate t n true, .change Document.forget]
  | testMatch _ _ => []
  | completions t n => [.change (final (Document.completions t n))]
  | reset => [.change Document.reset]

theorem final_perform (o : Operation) (s : Synthesizer Document) :
    final o.perform s = Step.afterAll o.steps s := by
  cases o with
  | declare name type => rfl
  | select selection => rfl
  | compile e => exact final_bind_pure _ _ s
  | evaluate t n asOverview => exact final_bind_pure _ _ s
  | evaluateEffect t n values => exact final_bind_pure _ _ s
  | apply t n => exact final_bind_pure _ _ s
  | applyResult result effect => exact final_bind_pure _ _ s
  | overview t n => exact (final_bind_pure _ _ s).trans (final_overview t n s)
  | testMatch t n => exact final_testMatch t n s
  | completions t n => exact final_bind_pure _ _ s
  | reset => rfl

theorem after_eq_afterAll (history : List Operation) (s : Synthesizer Document) :
    after history s = Step.afterAll (history.flatMap steps) s := by
  induction history generalizing s with
  | nil => rfl
  | cons o os ih =>
    rw [List.flatMap_cons, Step.afterAll_append, ← final_perform]
    exact ih _

/-- In every session an id is cached if and only if an effect with that id was asked for and
compiles, it keeps the snippet of the first such effect from then on, and a request that fails adds
nothing. So a session on a document in which effects with one id have one code answers, and leaves
the document, as if the code of an effect were compiled at each request. -/
theorem first_snippets_are_kept_and_cannot_be_seen :
    (∀ (ε : Type) [Evaluator ε] (e : ε) (before later : List (Step ε)),
      let new : Synthesizer ε := { evaluator := e }
      let s := Step.afterAll before new
      IsFilledBy (Step.requestsOfAll before new) s ∧
        (∀ id found, s.cached? id = some found →
          (Step.afterAll later s).cached? id = some found) ∧
        ∀ f err, outcome (snippet f) s = .error err → final (snippet f) s = s) ∧
    (∀ (history : List Operation) (s : Synthesizer Document),
      after history s = Step.afterAll (history.flatMap steps) s) ∧
    ∀ (text : Text) (config : Config) (history : List Operation), Coherent (MentionedIn history) →
      answers perform history (opening text config) =
          answers performAfresh history (.ofText text config) ∧
        (after history (opening text config)).evaluator =
          stateAfter performAfresh history (.ofText text config) := by
  refine ⟨fun ε _ e before later => ?_, after_eq_afterAll, fun text config _ hE =>
    answers_opening hE text config⟩
  have hheld := (holds_new e).run before
  exact ⟨hheld.isFilledBy, fun _ _ hfound => hheld.stays hfound later,
    fun _ _ => final_snippet_of_error⟩

def matchOf (e : SharedEffect) : MatchTree where
  nodes := #[
    { kind := .application { effect := e, pattern := [], children := [], ghost := 1 } },
    { parent := some 0, kind := .argument {} }]

def greeting (slot : Nat) : SharedEffect := ⟨slot, { id := "greet".toList, code := "hello ".toList }⟩

theorem both_slots_greet_alike :
    let history : List Operation := [.evaluate (matchOf (greeting 0)) 0 false, .reset,
      .overview (matchOf (greeting 1)) 0, .apply (matchOf (greeting 1)) 0]
    let s := after history (opening [] {})
    Coherent (MentionedIn history) ∧ s.isCached "greet".toList ∧
      answers perform history (opening [] {}) = answers performAfresh history (.ofText [] {}) ∧
      s.evaluator = stateAfter performAfresh history (.ofText [] {}) := by
  intro history s
  have hE : Coherent (MentionedIn history) := coherent_of_effects (by decide +kernel)
  obtain ⟨hcache, hsteps, hplain⟩ := first_snippets_are_kept_and_cannot_be_seen
  obtain ⟨hanswers, hdocument⟩ := hplain [] {} history hE
  refine ⟨hE, ?_, hanswers, hdocument⟩
  obtain ⟨hfilled, -⟩ := hcache Document (.ofText [] {}) (history.flatMap steps) []
  have hcompiles : compiledAs "greet".toList (greeting 0) =
      some [⟨greeting 0, .text "hello ".toList⟩] := by decide +kernel
  obtain ⟨hid, hcompile⟩ := compiledAs_eq_some.mp hcompiles
  rw [show s = _ from hsteps history _]
  exact (hfilled.isCached_iff _).mpr ⟨greeting 0, by decide +kernel, hid, _, hcompile⟩

end Steps

end Operation

end SnippetEngine
