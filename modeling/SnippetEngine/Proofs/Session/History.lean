-- Histories of sessions on a document. Each operation edits the selection or the declared variables,
-- or leaves both as they are, and what it leaves behind in the rest of the session is cleared or
-- ignored by the next evaluation. So of a history only its edits count.
import SnippetEngine.Proofs.Session.Transcript

namespace SnippetEngine

open Session

namespace Operation

/-- The effects of a history, and those of one more match. -/
def Mentioned (history : List Operation) (t : MatchTree) (e : SharedEffect) : Prop :=
  (∃ o ∈ history, o.Mentions e) ∨ t.Mentions e

/-! ## What a history leaves behind -/

variable {E : SharedEffect → Prop}

theorem touched_edit {d e : Document} (h : Document.Touched d e) (o : Operation) :
    Document.Touched (o.edit d) (o.edit e) := by
  obtain ⟨hbase, hconfig, hselection, hdeclared⟩ := h
  cases o with
  | declare name type =>
    exact ⟨hbase, hconfig, hselection, congrArg (Bindings.bind name type) hdeclared⟩
  | select selection => exact ⟨hbase, hconfig, rfl, hdeclared⟩
  | _ => exact ⟨hbase, hconfig, hselection, hdeclared⟩

def edited (history : List Operation) (d : Document) : Document :=
  history.foldl (fun d o => o.edit d) d

/-- Of a history, the document shows the edits, up to gathered things and results. -/
theorem touched_after (history : List Operation) {d : Document} {s : Synthesizer Document}
    (hd : Document.Touched d s.evaluator) :
    Document.Touched (edited history d) (after history s).evaluator := by
  induction history generalizing d s with
  | nil => exact hd
  | cons o os ih =>
    have hdoc := (perform_becomes Gathered.isKept_true trivial o (s := s) trivial).touched
    exact ih ((touched_edit hd o).trans hdoc)

theorem caches_after (hE : Coherent E) {history : List Operation}
    (hh : ∀ o ∈ history, ∀ e, o.Mentions e → E e) {s : Synthesizer Document} (hs : s.Caches E) :
    (after history s).Caches E := by
  induction history generalizing s with
  | nil => exact hs
  | cons o os ih =>
    rw [List.forall_mem_cons] at hh
    obtain ⟨-, hcache, -⟩ := perform_mirrors hE hh.1 ⟨hs, rfl⟩
    exact ih hh.2 hcache

theorem edited_base_config (history : List Operation) (d : Document) :
    (edited history d).base = d.base ∧ (edited history d).config = d.config := by
  induction history generalizing d with
  | nil => exact ⟨rfl, rfl⟩
  | cons o os ih =>
    have hkeeps : (o.edit d).base = d.base ∧ (o.edit d).config = d.config := by
      cases o <;> exact ⟨rfl, rfl⟩
    obtain ⟨hbase, hconfig⟩ := ih (o.edit d)
    exact ⟨hbase.trans hkeeps.1, hconfig.trans hkeeps.2⟩

/-! ## History does not count -/

section Opening

variable (text : Text) (config : Config)

theorem after_opening {history : List Operation} {t : MatchTree}
    (hE : Coherent (Mentioned history t)) :
    (after history (opening text config)).Caches (Mentioned history t) ∧
      Document.Touched (edited history (.ofText text config))
        (after history (opening text config)).evaluator :=
  ⟨caches_after hE (fun o ho _ he => Or.inl ⟨o, ho, he⟩) (caches_opening text config _),
    touched_after history (.refl _)⟩

theorem base_config_after {history : List Operation} {t : MatchTree}
    (hE : Coherent (Mentioned history t)) :
    (after history (opening text config)).evaluator.base = text ∧
      (after history (opening text config)).evaluator.config = config := by
  obtain ⟨-, htouched⟩ := after_opening text config hE
  obtain ⟨hbase, hconfig⟩ := edited_base_config history (.ofText text config)
  exact ⟨htouched.base.trans hbase, htouched.config.trans hconfig⟩

/-- Histories with the same selection and the same declared variables lead to documents that an
application cannot tell apart. -/
theorem samePlace_after {h₁ h₂ : List Operation} {t : MatchTree}
    (hselection : (after h₁ (opening text config)).evaluator.selection =
      (after h₂ (opening text config)).evaluator.selection)
    (hdeclared : ∀ name, (after h₁ (opening text config)).evaluator.declaredType? name =
      (after h₂ (opening text config)).evaluator.declaredType? name)
    (hE₁ : Coherent (Mentioned h₁ t)) (hE₂ : Coherent (Mentioned h₂ t)) :
    Document.SamePlace (after h₁ (opening text config)).evaluator
      (after h₂ (opening text config)).evaluator := by
  obtain ⟨hbase₁, hconfig₁⟩ := base_config_after text config hE₁
  obtain ⟨hbase₂, hconfig₂⟩ := base_config_after text config hE₂
  exact ⟨hbase₁.trans hbase₂.symm, hconfig₁.trans hconfig₂.symm, hselection, hdeclared⟩

end Opening

/-- Two histories that leave the same selection and the same declared variables cannot be told apart
by evaluating or applying a match. So a second application of a match changes nothing, and an
application leaves nothing of the one before it. -/
theorem evaluations_and_applications_forget_history (text : Text) (config : Config)
    (h₁ h₂ : List Operation) (t : MatchTree) (n : NodeId)
    (hselection : (after h₁ (opening text config)).evaluator.selection =
      (after h₂ (opening text config)).evaluator.selection)
    (hdeclared : ∀ name, (after h₁ (opening text config)).evaluator.declaredType? name =
      (after h₂ (opening text config)).evaluator.declaredType? name)
    (hE₁ : Coherent (Mentioned h₁ t)) (hE₂ : Coherent (Mentioned h₂ t)) :
    let s₁ := after h₁ (opening text config)
    let s₂ := after h₂ (opening text config)
    (∀ asOverview, outcome (Environment.evaluate t n asOverview) s₁ =
        outcome (Environment.evaluate t n asOverview) s₂ ∧
      (final (Environment.evaluate t n asOverview) s₁).evaluator.gathered =
        (final (Environment.evaluate t n asOverview) s₂).evaluator.gathered) ∧
    outcome (Environment.apply t n) s₁ = outcome (Environment.apply t n) s₂ ∧
    (outcome (Environment.apply t n) s₁ = .ok () →
      let d₁ := (final (Environment.apply t n) s₁).evaluator
      let d₂ := (final (Environment.apply t n) s₂).evaluator
      d₁.text = d₂.text ∧ d₁.cursor? = d₂.cursor? ∧ d₁.gathered = d₂.gathered) ∧
    (final (Environment.apply t n) (final (Environment.apply t n) s₁)).evaluator =
      (final (Environment.apply t n) s₁).evaluator ∧
    ∀ (u : MatchTree) (m : NodeId), Coherent (Mentioned (h₁ ++ [.apply u m]) t) →
      outcome (Environment.apply t n) (final (Environment.apply u m) s₁) =
        outcome (Environment.apply t n) s₁ ∧
      (outcome (Environment.apply t n) s₁ = .ok () →
        (final (Environment.apply t n) (final (Environment.apply u m) s₁)).evaluator =
          (final (Environment.apply t n) s₁).evaluator) := by
  have hplace := samePlace_after text config hselection hdeclared hE₁ hE₂
  obtain ⟨hs₁, _⟩ := after_opening text config hE₁
  obtain ⟨hs₂, _⟩ := after_opening text config hE₂
  generalize after h₁ (opening text config) = s₁ at *
  generalize after h₂ (opening text config) = s₂ at *
  dsimp only
  have ht₁ : ∀ e, t.Mentions e → Mentioned h₁ t e := fun _ he => .inr he
  have ht₂ : ∀ e, t.Mentions e → Mentioned h₂ t e := fun _ he => .inr he
  obtain ⟨hout₁, hdoc₁, hcache₁⟩ := Synthesizer.apply_eq_document hE₁ ht₁ hs₁ n
  obtain ⟨hout₂, hdoc₂, _⟩ := Synthesizer.apply_eq_document hE₂ ht₂ hs₂ n
  obtain ⟨hout, hends⟩ := Document.apply_inStep hplace t n
  refine ⟨fun asOverview => ?_, ?_, fun hok => ?_, ?_, fun u m hE => ?_⟩
  · obtain ⟨he₁, hd₁, _⟩ := Synthesizer.evaluate_eq_document hE₁ ht₁ hs₁ n asOverview
    obtain ⟨he₂, hd₂, _⟩ := Synthesizer.evaluate_eq_document hE₂ ht₂ hs₂ n asOverview
    obtain ⟨hr, g, hg₁, hg₂⟩ := Document.evaluate_inStep hplace.sameScene t n asOverview
    rw [he₁, he₂, hd₁, hd₂, hg₁, hg₂]
    exact ⟨hr, rfl⟩
  · rw [hout₁, hout₂]
    exact hout
  · rw [hout₁.symm.trans hok] at hends
    obtain ⟨g, a, hd₁, hd₂⟩ := hends.of_ok
    rw [hdoc₁, hdoc₂, hd₁, hd₂]
    exact ⟨rfl, rfl, rfl⟩
  · obtain ⟨_, hdoc, _⟩ := Synthesizer.apply_eq_document hE₁ ht₁ hcache₁ n
    rw [hdoc, hdoc₁]
    exact Document.apply_twice s₁.evaluator t n
  · have ht : ∀ e, t.Mentions e → Mentioned (h₁ ++ [.apply u m]) t e := fun _ he => .inr he
    have hu : ∀ e, u.Mentions e → Mentioned (h₁ ++ [.apply u m]) t e :=
      fun _ he => .inl ⟨.apply u m, by simp, he⟩
    have hs : s₁.Caches (Mentioned (h₁ ++ [.apply u m]) t) := by
      apply hs₁.mono
      rintro e (⟨o, ho, he⟩ | he)
      · exact .inl ⟨o, List.mem_append_left _ ho, he⟩
      · exact .inr he
    obtain ⟨_, hdocu, hcacheu⟩ := Synthesizer.apply_eq_document hE hu hs m
    obtain ⟨hout', hdoc, _⟩ := Synthesizer.apply_eq_document hE ht hcacheu n
    have htouched := Document.touched_apply s₁.evaluator u m
    rw [hout', hdoc, hdocu, hout₁, hdoc₁]
    refine ⟨(Document.apply_inStep htouched.samePlace t n).1.symm, fun hok => ?_⟩
    exact Document.apply_touched htouched hok

def totalTree : MatchTree where
  nodes := #[
    { kind := .application
        { effect := ⟨0, { id := "total".toList, code := "int $\x7bfreeName(total)\x7d = 0;".toList }⟩
          pattern := []
          children := []
          ghost := 1 } },
    { parent := some 0, kind := .argument {} }]

theorem coherent_totalTree (history : List Operation)
    (h : ∀ o ∈ history, ∀ e, o.Mentions e → totalTree.Mentions e) :
    Coherent (Mentioned history totalTree) := by
  have hone : ∀ e, totalTree.Mentions e →
      e.effect.code = "int $\x7bfreeName(total)\x7d = 0;".toList := by
    rintro e ⟨n, a, ⟨node, hn, hk⟩, rfl⟩
    match n with
    | 0 =>
      cases hn
      cases hk
      rfl
    | 1 =>
      cases hn
      cases hk
    | n + 2 => simp [MatchTree.node?, totalTree] at hn
  have hcode : ∀ e, Mentioned history totalTree e →
      e.effect.code = "int $\x7bfreeName(total)\x7d = 0;".toList := by
    rintro e (⟨o, ho, he⟩ | he)
    · exact hone e (h o ho e he)
    · exact hone e he
  intro e f he hf _
  rw [hcode e he, hcode f hf]

/-- One history applies a match, shows it and resets the session, the other one evaluates it. Both
select the same. -/
theorem total_after_two_histories :
    let h₁ : List Operation :=
      [.select ⟨0, 1⟩, .apply totalTree 0, .overview totalTree 0, .reset]
    let h₂ : List Operation := [.evaluate totalTree 0 true, .select ⟨0, 1⟩]
    let s₁ := after h₁ (opening ['x'] {})
    let s₂ := after h₂ (opening ['x'] {})
    s₁.evaluator.selection = s₂.evaluator.selection ∧
    (∀ name, s₁.evaluator.declaredType? name = s₂.evaluator.declaredType? name) ∧
    Coherent (Mentioned h₁ totalTree) ∧ Coherent (Mentioned h₂ totalTree) ∧
    outcome (Environment.apply totalTree 0) s₁ = outcome (Environment.apply totalTree 0) s₂ ∧
    (outcome (Environment.apply totalTree 0) s₁ = .ok () →
      (final (Environment.apply totalTree 0) s₁).evaluator.text =
        (final (Environment.apply totalTree 0) s₂).evaluator.text) := by
  intro h₁ h₂ s₁ s₂
  have hE₁ : Coherent (Mentioned h₁ totalTree) := by
    apply coherent_totalTree
    simp [h₁, Mentions]
  have hE₂ : Coherent (Mentioned h₂ totalTree) := by
    apply coherent_totalTree
    simp [h₂, Mentions]
  have hp₁ := (after_opening ['x'] {} hE₁).2.samePlace
  have hp₂ := (after_opening ['x'] {} hE₂).2.samePlace
  have hselection : s₁.evaluator.selection = s₂.evaluator.selection :=
    hp₁.selection.symm.trans hp₂.selection
  have hdeclared : ∀ name, s₁.evaluator.declaredType? name = s₂.evaluator.declaredType? name :=
    fun name => (hp₁.declaredType name).symm.trans (hp₂.declaredType name)
  obtain ⟨_, hout, hdoc, _⟩ :=
    evaluations_and_applications_forget_history ['x'] {} h₁ h₂ totalTree 0 hselection hdeclared
      hE₁ hE₂
  exact ⟨hselection, hdeclared, hE₁, hE₂, hout, fun hok => (hdoc hok).1⟩

end Operation

end SnippetEngine
