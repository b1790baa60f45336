-- Overviews leave no trace. An overview touches the gathered things alone, and forgets them in the
-- end. Operations that begin with forgetting, or do not ask for gathered things, answer the same
-- with the overviews between them and without.
import SnippetEngine.Proofs.Session.Transcript

namespace SnippetEngine

open Session

/-! ## Documents without a cache -/

namespace Document

/-- An overview changes nothing but the gathered things, of which it leaves none. -/
theorem final_overviewAfresh (t : MatchTree) (n : NodeId) (d : Document) :
    final (overviewAfresh t n) d = d.forget := by
  obtain ⟨g, hgathers, -⟩ := (evaluate_inStep (.refl d) t n true).2
  unfold overviewAfresh
  rw [final_observing_bind, hgathers]
  rcases outcome (Environment.evaluate t n true) d with e | rendered
  · rfl
  · rcases t.application? n with e | application
    · rfl
    · rfl

end Document

namespace Operation

def isOverview : Operation → Bool
  | overview _ _ => true
  | _ => false

/-- True if an operation goes on with what an evaluation before it has gathered. -/
def resumes : Operation → Bool
  | evaluateEffect _ _ _ | applyResult _ _ => true
  | _ => false

/-- What was gathered before has no say in the other operations. -/
theorem performAfresh_forget {o : Operation} (h : o.resumes = false) (d : Document) :
    outcome o.performAfresh d.forget = outcome o.performAfresh d ∧
      (final o.performAfresh d.forget).forget = (final o.performAfresh d).forget := by
  cases o with
  | declare name type => exact ⟨rfl, rfl⟩
  | select selection => exact ⟨rfl, rfl⟩
  | compile e =>
    rw [performAfresh, outcome_bind_pure, outcome_bind_pure, final_bind_pure, final_bind_pure,
      outcome_lift, outcome_lift, final_lift, final_lift]
    exact ⟨rfl, rfl⟩
  | evaluate t n asOverview => exact ⟨rfl, rfl⟩
  | apply t n => exact ⟨rfl, rfl⟩
  | overview t n => exact ⟨rfl, rfl⟩
  | testMatch t n =>
    have hrun : ∀ e : Document, (performAfresh (.testMatch t n)).run.run e =
        ((e.testMatch t n).map .verdict, e) := by
      intro e
      unfold performAfresh
      rw [run_get_bind]
      change (liftM (e.testMatch t n) >>= _ : Session Document Answer).run.run e = _
      rcases e.testMatch t n with err | isValid
      · rfl
      · rfl
    unfold outcome final
    rw [hrun, hrun]
    exact ⟨rfl, rfl⟩
  | completions t n =>
    have hrun := Document.run_completions t n
    rw [performAfresh, outcome_bind_pure, outcome_bind_pure, final_bind_pure, final_bind_pure]
    change (outcome (Document.completions t n) _).map _ =
      (outcome (Document.completions t n) _).map _ ∧ (final (Document.completions t n) _).forget =
      (final (Document.completions t n) _).forget
    unfold outcome final
    rw [hrun, hrun]
    exact ⟨rfl, rfl⟩
  | reset => exact ⟨rfl, rfl⟩
  | evaluateEffect | applyResult => cases h

theorem performAfresh_congr {o : Operation} (h : o.resumes = false) {d e : Document}
    (hde : d.forget = e.forget) :
    outcome o.performAfresh d = outcome o.performAfresh e ∧
      (final o.performAfresh d).forget = (final o.performAfresh e).forget := by
  obtain ⟨hd, hd'⟩ := performAfresh_forget h d
  obtain ⟨he, he'⟩ := performAfresh_forget h e
  rw [hde] at hd hd'
  exact ⟨hd.symm.trans he, hd'.symm.trans he'⟩

theorem answers_without_overviews {history : List Operation}
    (h : ∀ o ∈ history, o.resumes = false) {d e : Document} (hde : d.forget = e.forget) :
    let kept := history.filter (!·.isOverview)
    (answers performAfresh history d).filter (!·.1.isOverview) = answers performAfresh kept e ∧
      (stateAfter performAfresh history d).forget = (stateAfter performAfresh kept e).forget := by
  induction history generalizing d e with
  | nil => exact ⟨rfl, hde⟩
  | cons o os ih =>
    have hrest : ∀ o ∈ os, o.resumes = false := fun o' ho' => h o' (List.mem_cons_of_mem o ho')
    by_cases hoverview : o.isOverview = true
    · have hfinal : final o.performAfresh d = d.forget := by
        cases o with
        | overview t n => exact (final_bind_pure _ _ d).trans (Document.final_overviewAfresh t n d)
        | _ => cases hoverview
      rw [answers, List.filter_cons_of_neg (by simpa using hoverview),
        List.filter_cons_of_neg (by simpa using hoverview)]
      have hrun : stateAfter performAfresh (o :: os) d = stateAfter performAfresh os d.forget :=
        congrArg (stateAfter performAfresh os) hfinal
      rw [hfinal, hrun]
      exact ih hrest hde
    · obtain ⟨hout, hfinal⟩ := performAfresh_congr (h o List.mem_cons_self) hde
      obtain ⟨hanswers, hend⟩ := ih hrest hfinal
      rw [answers, List.filter_cons_of_pos (by simpa using hoverview),
        List.filter_cons_of_pos (by simpa using hoverview), hanswers, hout]
      exact ⟨rfl, hend⟩

/-! ## Sessions -/

/-- Overviews can be left out of a history: the other operations answer the same, and the session
ends with the same text, cursor, selection and declared variables. Behind an overview nothing is
gathered. -/
theorem overviews_leave_no_trace (text : Text) (config : Config) {history : List Operation}
    (h : ∀ o ∈ history, o.resumes = false) (hE : Coherent (MentionedIn history)) :
    let new := opening text config
    let kept := history.filter (!·.isOverview)
    let d := (after history new).evaluator
    let e := (after kept new).evaluator
    (answers perform history new).filter (!·.1.isOverview) = answers perform kept new ∧
      d.text = e.text ∧ d.cursor? = e.cursor? ∧ d.isClean = e.isClean ∧
      d.selection = e.selection ∧ d.declared = e.declared ∧
      ∀ (s : Synthesizer Document) (t : MatchTree) (n : NodeId),
        (final (Document.overview t n) s).evaluator.gathered = {} := by
  intro new kept d e
  have hkept : Coherent (MentionedIn kept) := by
    have hsub : ∀ f, MentionedIn kept f → MentionedIn history f := by
      rintro f ⟨o, ho, hf⟩
      exact ⟨o, (List.mem_filter.mp ho).1, hf⟩
    exact fun f g hf hg => hE f g (hsub f hf) (hsub g hg)
  obtain ⟨hanswers, hd⟩ := answers_opening hE text config
  obtain ⟨hanswers', he⟩ := answers_opening hkept text config
  obtain ⟨hfilter, hend⟩ := answers_without_overviews h (d := .ofText text config) rfl
  have hforget : d.forget = e.forget := by
    rw [show d = _ from hd, show e = _ from he]
    exact hend
  refine ⟨?_, congrArg (·.text) hforget, congrArg (·.cursor?) hforget,
    congrArg (·.isClean) hforget, congrArg (·.selection) hforget, congrArg (·.declared) hforget,
    fun s t n => ?_⟩
  · rw [show answers perform history new = _ from hanswers, hfilter]
    exact hanswers'.symm
  · rw [final_overview]
    rfl

def broken : SharedEffect := ⟨0, { id := "broken".toList, code := "$\x7bf(\x7d".toList }⟩

theorem application_between_overviews :
    let history : List Operation := [.overview (matchOf (greeting 0)) 0, .select ⟨0, 0⟩,
      .overview (matchOf broken) 0, .apply (matchOf (greeting 1)) 0]
    let kept : List Operation := [.select ⟨0, 0⟩, .apply (matchOf (greeting 1)) 0]
    let new := opening [] {}
    (∀ o ∈ history, o.resumes = false) ∧ Coherent (MentionedIn history) ∧
      (outcome (Document.overview (matchOf broken) 0) new).toOption = none ∧
      (answers perform history new).filter (!·.1.isOverview) = answers perform kept new ∧
      (after history new).evaluator.text = (after kept new).evaluator.text := by
  intro history kept new
  have hresumes : ∀ o ∈ history, o.resumes = false := by simp [history, resumes]
  have hE : Coherent (MentionedIn history) := coherent_of_effects (by decide +kernel)
  obtain ⟨hanswers, htext, -⟩ := overviews_leave_no_trace [] {} hresumes hE
  exact ⟨hresumes, hE, by decide +kernel, hanswers, htext⟩

end Operation

end SnippetEngine
