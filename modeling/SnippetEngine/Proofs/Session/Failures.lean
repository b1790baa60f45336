-- When operations fail, and what they leave behind. A result is refused for an effect of another
-- environment or for a selection that does not lie in the base text, and for nothing else. An
-- evaluation fails for code that does not compile, wherever it stands in the match. Whatever fails
-- leaves the document as it was, up to what the evaluation has gathered.
import SnippetEngine.Proofs.Document.Slices
import SnippetEngine.Proofs.Match.Order
import SnippetEngine.Proofs.Session.States
import SnippetEngine.Proofs.Session.Walk

namespace SnippetEngine

open Session Text

/-! ## Sessions that fail -/

namespace Session

variable {σ α β : Type}

def Fails (x : Session σ α) (s : σ) : Prop := ∃ e, outcome x s = .error e

theorem fails_of_error {x : Session σ α} {s : σ} {e : Error} (h : outcome x s = .error e) :
    Fails x s := ⟨e, h⟩

theorem not_fails_of_ok {x : Session σ α} {s : σ} {a : α} (h : outcome x s = .ok a) :
    ¬ Fails x s := by
  rintro ⟨e, he⟩
  rw [h] at he
  cases he

theorem not_fails_iff {x : Session σ α} {s : σ} : ¬ Fails x s ↔ ∃ a, outcome x s = .ok a := by
  rcases h : outcome x s with e | a
  · exact iff_of_false (fun hnot => hnot (fails_of_error h)) fun ⟨a, ha⟩ => nomatch ha
  · exact iff_of_true (not_fails_of_ok h) ⟨a, rfl⟩

theorem fails_lift_iff {x : Except Error α} {s : σ} :
    Fails (liftM x : Session σ α) s ↔ ∃ e, x = .error e := by
  unfold Fails
  rw [outcome_lift]

/-- A sequence of steps fails where its first step does, or else where the next ones do. -/
theorem fails_bind_iff {x : Session σ α} {f : α → Session σ β} {s : σ} :
    Fails (x >>= f) s ↔
      Fails x s ∨ ∃ a, outcome x s = .ok a ∧ Fails (f a) (final x s) := by
  unfold Fails
  rcases h : outcome x s with e | a
  · simp [outcome_bind_error f h]
  · simp [outcome_bind_ok f h]

end Session

/-! ## Results that are refused -/

/-- The ends of the selection are in order, and they are places of the text. -/
structure Selection.Fits (s : Selection) (t : Text) : Prop where
  inOrder : s.start ≤ s.stop
  start : t.HasPlace s.start
  stop : t.HasPlace s.stop

/-- The effect is written for an environment other than a document. -/
def Effect.TargetsElsewhere (e : Effect) : Prop :=
  e.environmentName ≠ [] ∧ e.environmentName ≠ Document.name

namespace Document

variable {d : Document} {result : Text} {effect : Option Effect}

theorem around?_isSome_iff : d.around?.isSome ↔ d.selection.Fits d.base := by
  rw [Option.isSome_iff_exists]
  constructor
  · rintro ⟨⟨before, after⟩, h⟩
    obtain ⟨selected, hbase, hstart, hstop⟩ := around?_eq_some.mp h
    refine ⟨?_, ?_, ?_⟩
    · rw [← hstart, ← hstop, byteSize_append]
      omega
    · rw [hbase, ← hstart]
      exact hasPlace_append _ _
    · rw [hbase, ← hstop, ← List.append_assoc]
      exact hasPlace_append _ _
  · rintro ⟨horder, ⟨-, hstart⟩, -, hstop⟩
    obtain ⟨⟨before, rest⟩, hstart⟩ := Option.isSome_iff_exists.mp hstart
    obtain ⟨⟨front, after⟩, hstop⟩ := Option.isSome_iff_exists.mp hstop
    obtain ⟨hrest, hsize⟩ := splitBytes?_eq_some.mp hstart
    obtain ⟨hafter, hsize'⟩ := splitBytes?_eq_some.mp hstop
    obtain ⟨selected, rfl⟩ : before <+: front :=
      prefix_of_byteSize_le ⟨rest, hrest.symm⟩ ⟨after, hafter.symm⟩ (by omega)
    exact ⟨(before, after),
      around?_eq_some.mpr ⟨selected, by rw [hafter, List.append_assoc], hsize, hsize'⟩⟩

theorem checkTarget_eq_ok :
    checkTarget effect = .ok () ↔ ¬ ∃ e, effect = some e ∧ e.TargetsElsewhere := by
  unfold checkTarget Effect.TargetsElsewhere
  rcases effect with _ | e
  · simp
  · by_cases hany : e.environmentName = []
    · simp [hany]
    · by_cases hname : e.environmentName = name
      · simp [hname]
      · simp [hany, hname]

theorem applyResult_fails_iff : Fails (applyResult result effect) d ↔
    (∃ e, effect = some e ∧ e.TargetsElsewhere) ∨ ¬ d.selection.Fits d.base := by
  have hok : (∃ a, outcome (applyResult result effect) d = .ok a) ↔
      (¬ ∃ e, effect = some e ∧ e.TargetsElsewhere) ∧ d.selection.Fits d.base := by
    rw [← checkTarget_eq_ok, ← around?_isSome_iff, ← applyResult_eq_ok]
    exact ⟨fun ⟨_, h⟩ => h, fun h => ⟨_, h⟩⟩
  rw [← not_iff_not, not_fails_iff, hok, not_or, not_not]

theorem final_applyResult_of_fails (h : Fails (applyResult result effect) d) :
    final (applyResult result effect) d = d := by
  obtain ⟨e, he⟩ := h
  unfold outcome at he
  unfold final
  rw [run_applyResult] at he ⊢
  rcases htarget : checkTarget effect with e | _
  · rfl
  · rcases hplace : d.around? with _ | ⟨before, after⟩
    · rfl
    · rw [htarget, hplace] at he
      cases he

end Document

/-! ## Evaluations that fail -/

/-- The code of the effect does not compile. -/
def SharedEffect.IsMalformed (e : SharedEffect) : Prop := ∃ err, Snippet.compile e = .error err

theorem SharedEffect.isMalformed_iff {e : SharedEffect} :
    e.IsMalformed ↔ (Snippet.compile e).toOption = none := by
  unfold IsMalformed
  rcases Snippet.compile e with err | snippet
  · simp [Except.toOption]
  · simp [Except.toOption]

/-- The node is that of an application whose code does not compile. -/
def MatchTree.IsMalformedAt (t : MatchTree) (m : NodeId) : Prop :=
  ∃ a, t.Applies m a ∧ a.effect.IsMalformed

namespace Document

variable {t : MatchTree} {overview : Bool}

/-- Once the code is compiled, nothing fails: formulas have an answer for everything. -/
theorem evaluateAfresh_fails_iff {n : NodeId} {a : Application} (happlies : t.Applies n a)
    (values : List Text) (d : Document) :
    Fails (evaluateAfresh t n values) d ↔ a.effect.IsMalformed := by
  have hrender : ∀ scope found (d : Document), ¬ Fails (Evaluator.render t n a scope found) d := by
    intro scope found d
    exact not_fails_of_ok (congrArg Prod.fst (run_render t n a scope found d))
  unfold evaluateAfresh
  rw [MatchTree.application?_eq_some.mpr happlies, ok_lift_bind]
  simp only [fails_bind_iff, fails_lift_iff]
  constructor
  · rintro (hcompile | ⟨found, -, hfails | ⟨text, -, _, hpure⟩⟩)
    · exact hcompile
    · exact absurd hfails (hrender _ _ _)
    · cases hpure
  · exact .inl

/-- From every document, the evaluation of the match fails exactly if the code of one of its
applications does not compile. -/
def FailsForCode (t : MatchTree) (overview : Bool) (s : Shape) : Prop :=
  ∀ d : Document, Fails (Environment.evaluateShape t overview s) d ↔
    ∃ m ∈ s.postorder, t.IsMalformedAt m

theorem evaluateShapes_fails_iff {ss : List Shape} (h : ∀ s ∈ ss, FailsForCode t overview s)
    (d : Document) : Fails (Environment.evaluateShapes t overview ss) d ↔
      ∃ m ∈ Shape.postorderOfAll ss, t.IsMalformedAt m := by
  induction ss generalizing d with
  | nil =>
    unfold Environment.evaluateShapes Shape.postorderOfAll
    simp [Fails, outcome]
  | cons s ss ih =>
    have hfirst := h s List.mem_cons_self d
    have hrest := ih fun s hs => h s (List.mem_cons_of_mem _ hs)
    unfold Environment.evaluateShapes Shape.postorderOfAll
    simp only [List.mem_append, or_and_right, exists_or, ← hfirst]
    rcases hout : outcome (Environment.evaluateShape t overview s) d with e | value
    · have hfails : Fails (Environment.evaluateShape t overview s) d := fails_of_error hout
      exact iff_of_true (fails_bind_iff.mpr (.inl hfails)) (.inl hfails)
    · have hok : ¬ Fails (Environment.evaluateShape t overview s) d := not_fails_of_ok hout
      rw [or_iff_right hok, ← hrest (final (Environment.evaluateShape t overview s) d)]
      unfold Fails
      rw [outcome_bind_ok _ hout, outcome_bind_pure]
      cases outcome (Environment.evaluateShapes t overview ss)
        (final (Environment.evaluateShape t overview s) d) <;> simp [Except.map]

theorem exists_failsForCode (ht : t.WellFormed) {n : NodeId} (hn : n < t.size) (overview : Bool) :
    ∃ s, t.shape? n = some s ∧ FailsForCode t overview s := by
  refine ht.exists_shape (motive := fun _ s => FailsForCode t overview s) (fun n a _ d => ?_)
    (fun n a ss happlies hchildren d => ?_) hn
  · unfold Environment.evaluateShape Shape.postorder
    simp [Fails, outcome]
  · have hall := evaluateShapes_fails_iff (fun s hs => by
      obtain ⟨i, hi, rfl⟩ := List.getElem_of_mem hs
      exact (hchildren.get (hchildren.length_eq ▸ hi) hi).2) d
    have hat : t.IsMalformedAt n ↔ a.effect.IsMalformed := by
      constructor
      · rintro ⟨b, hb, hmalformed⟩
        rwa [hb.unique happlies] at hmalformed
      · exact fun hmalformed => ⟨a, happlies, hmalformed⟩
    unfold Environment.evaluateShape Shape.postorder
    simp only [List.mem_append, List.mem_singleton, or_and_right, exists_or, exists_eq_left, hat,
      ← hall]
    rcases hout : outcome (Environment.evaluateShapes t overview ss) d with e | values
    · have hfails : Fails (Environment.evaluateShapes t overview ss) d := fails_of_error hout
      exact iff_of_true (fails_bind_iff.mpr (.inl hfails)) (.inl hfails)
    · have hok : ¬ Fails (Environment.evaluateShapes t overview ss) d := not_fails_of_ok hout
      rw [or_iff_right hok, ← evaluateAfresh_fails_iff happlies values]
      unfold Fails
      rw [outcome_bind_ok _ hout]
      rfl

/-- An evaluation fails exactly if the code of an application below the node does not compile. -/
theorem evaluate_fails_iff (ht : t.WellFormed) {n : NodeId} (hn : n < t.size) (overview : Bool)
    (d : Document) : Fails (Environment.evaluate t n overview) d ↔
      ∃ m, t.IsBelow m n ∧ t.IsMalformedAt m := by
  obtain ⟨s, hs, hcode⟩ := exists_failsForCode ht hn overview
  have hfails := hcode (Environment.beginEvaluation d)
  unfold Fails outcome at hfails ⊢
  rw [run_evaluate hs, hfails, ← MatchTree.postorder_of_shape? hs]
  refine exists_congr fun m => ?_
  rw [ht.mem_postorder]
  exact ⟨fun ⟨⟨_, hbelow⟩, hmalformed⟩ => ⟨hbelow, hmalformed⟩,
    fun ⟨hbelow, a, happlies, hmalformed⟩ => ⟨⟨⟨a, happlies⟩, hbelow⟩, a, happlies, hmalformed⟩⟩

theorem apply_fails_iff (ht : t.WellFormed) {n : NodeId} (hn : n < t.size) (d : Document) :
    Fails (Environment.apply t n) d ↔ (∃ m, t.IsBelow m n ∧ t.IsMalformedAt m) ∨
      (∃ a, t.Applies n a ∧ a.effect.effect.TargetsElsewhere) ∨ ¬ d.selection.Fits d.base := by
  obtain ⟨application, happlication⟩ := MatchTree.exists_application? hn
  have htarget : (∃ e, application.map (·.effect.effect) = some e ∧ e.TargetsElsewhere) ↔
      ∃ a, t.Applies n a ∧ a.effect.effect.TargetsElsewhere := by
    simp only [← MatchTree.application?_eq_some, happlication, Except.ok.injEq,
      Option.map_eq_some_iff]
    constructor
    · rintro ⟨_, ⟨a, ha, rfl⟩, helsewhere⟩
      exact ⟨a, ha, helsewhere⟩
    · rintro ⟨a, ha, helsewhere⟩
      exact ⟨_, ⟨a, ha, rfl⟩, helsewhere⟩
  rw [← evaluate_fails_iff ht hn false d, ← htarget]
  unfold Environment.apply
  rw [happlication, fails_bind_iff]
  rcases hout : outcome (Environment.evaluate t n false) d with e | result
  · have hfails : Fails (Environment.evaluate t n false) d := fails_of_error hout
    exact iff_of_true (.inl hfails) (.inl hfails)
  · have hok : ¬ Fails (Environment.evaluate t n false) d := not_fails_of_ok hout
    obtain ⟨g, hgathers, -⟩ := (evaluate_inStep (.refl d) t n false).2
    rw [or_iff_right hok, or_iff_right hok, hgathers]
    simp only [Except.ok.injEq, exists_eq_left']
    exact applyResult_fails_iff

end Document

/-! ## What failures leave behind -/

/-- If the step fails, the document of the session is what it was, up to what is gathered. -/
def Session.SparesDocument {α : Type} (x : Session (Synthesizer Document) α)
    (s : Synthesizer Document) : Prop :=
  Fails x s → s.evaluator.Gathers (fun _ => True) (final x s).evaluator

theorem Document.spares_applyResult {result : Text} {effect : Option Effect}
    {s : Synthesizer Document} (h : Fails (Environment.applyResult result effect) s) :
    (final (Environment.applyResult result effect) s).evaluator = s.evaluator := by
  have hdoc : Fails (Document.applyResult result effect) s.evaluator := h
  exact final_applyResult_of_fails hdoc

namespace Synthesizer

variable {t : MatchTree} {s : Synthesizer Document}

theorem spares_evaluate (t : MatchTree) (n : NodeId) (overview : Bool) (s : Synthesizer Document) :
    SparesDocument (Environment.evaluate t n overview) s :=
  fun _ => evaluate_gathers Gathered.isKept_true trivial t n overview s

theorem spares_apply (t : MatchTree) (n : NodeId) (s : Synthesizer Document) :
    SparesDocument (Environment.apply t n) s := by
  intro hfails
  have hgathers := evaluate_gathers Gathered.isKept_true trivial t n false s
  unfold Environment.apply at hfails ⊢
  rcases hr : outcome (Environment.evaluate t n false) s with e | result
  · rwa [final_bind_error _ hr]
  · rw [final_bind_ok _ hr]
    unfold Fails at hfails
    rw [outcome_bind_ok _ hr] at hfails
    rcases ha : t.application? n with e | application
    · exact hgathers
    · rw [ha, ok_lift_bind] at hfails
      rw [ok_lift_bind, Document.spares_applyResult hfails]
      exact hgathers

theorem spares_overview (t : MatchTree) (n : NodeId) (s : Synthesizer Document) :
    SparesDocument (Document.overview t n) s := by
  intro _
  obtain ⟨g, hdoc, -⟩ := evaluate_gathers Gathered.isKept_true trivial t n true s
  rw [Operation.final_overview, hdoc]
  exact ⟨{}, rfl, trivial⟩

/-- A match is refused for the same reasons whether its code is compiled afresh or kept. -/
theorem apply_fails_iff (hE : Coherent t.Mentions) (ht : t.WellFormed) {n : NodeId}
    (hn : n < t.size) (hs : s.Caches t.Mentions) :
    Fails (Environment.apply t n) s ↔ (∃ m, t.IsBelow m n ∧ t.IsMalformedAt m) ∨
      (∃ a, t.Applies n a ∧ a.effect.effect.TargetsElsewhere) ∨
      ¬ s.evaluator.selection.Fits s.evaluator.base := by
  obtain ⟨hout, -⟩ := apply_eq_document hE (fun _ he => he) hs n
  rw [← Document.apply_fails_iff ht hn s.evaluator]
  unfold Fails
  rw [hout]

end Synthesizer

/-- A result is refused for an effect of another environment or for a selection that does not lie in
the base text; else the text is put together from slices, none of which is missing. A match is
applied unless its code, wherever it stands, does not compile, or its value would be refused.
Whatever fails leaves the document, up to what is gathered. -/
theorem failures_leave_the_document :
    (∀ (d : Document) (result : Text) (effect : Option Effect),
      let x := Document.applyResult result effect
      (Fails x d ↔
        (∃ e, effect = some e ∧ e.TargetsElsewhere) ∨ ¬ d.selection.Fits d.base) ∧
      (Fails x d → final x d = d) ∧
      (¬ Fails x d → ∃ a, d.insertSliced? result = some a ∧ final x d =
        { d with text := a.text, cursor? := some a.cursor, isClean := false })) ∧
    (∀ (steps : List MatchTree.Step) (n : NodeId), let t := MatchTree.build steps
      n < t.size → Coherent t.Mentions → ∀ d : Document,
        Fails (Environment.apply t n) ({ evaluator := d } : Synthesizer Document) ↔
          (∃ m, t.IsBelow m n ∧ t.IsMalformedAt m) ∨
          (∃ a, t.Applies n a ∧ a.effect.effect.TargetsElsewhere) ∨ ¬ d.selection.Fits d.base) ∧
    ∀ (t : MatchTree) (n : NodeId) (s : Synthesizer Document),
      SparesDocument (Environment.apply t n) s ∧ SparesDocument (Document.overview t n) s ∧
      ∀ overview, SparesDocument (Environment.evaluate t n overview) s := by
  refine ⟨?_, ?_, ?_⟩
  · intro d result effect x
    refine ⟨Document.applyResult_fails_iff, Document.final_applyResult_of_fails, fun hok => ?_⟩
    obtain ⟨u, hu⟩ := not_fails_iff.mp hok
    obtain ⟨htarget, hplace⟩ := Document.applyResult_eq_ok.mp hu
    obtain ⟨⟨before, after⟩, hplace⟩ := Option.isSome_iff_exists.mp hplace
    exact ⟨_, Document.insertSliced?_eq_some hplace result,
      Document.final_applyResult result htarget hplace⟩
  · intro steps n t hn hE d
    exact Synthesizer.apply_fails_iff (s := { evaluator := d }) hE
      (MatchTree.wellFormed_build steps) hn fun _ hentry => nomatch hentry
  · intro t n s
    exact ⟨Synthesizer.spares_apply t n s, Synthesizer.spares_overview t n s,
      fun overview => Synthesizer.spares_evaluate t n overview s⟩

/-- A match with two arguments: one that asks for an import, and then one that does not compile. -/
def brokenSteps : List MatchTree.Step :=
  [.addEffect ⟨0, { id := ['a'], code := "$\x7bimport(b)\x7d".toList }⟩ [] [],
    .addEffect ⟨1, { id := ['c'], code := "$\x7bf(\x7d".toList }⟩ [] [],
    .addEffect ⟨2, { id := ['d'], parameters := [{ name := ['x'] }, { name := ['y'] }] }⟩ [] [0, 2]]

/-- The import is still asked for behind the failure, and the text is what it was. -/
theorem broken_argument_is_refused :
    let t := MatchTree.build brokenSteps
    let d := Document.ofText "text".toList {}
    let x : Session (Synthesizer Document) Unit := Environment.apply t 4
    let behind := (final x { evaluator := d }).evaluator
    4 < t.size ∧ Coherent t.Mentions ∧ Fails x { evaluator := d } ∧
      behind.gathered.imports = [['b']] ∧ behind.text = "text".toList ∧
      Fails (Document.applyResult [] none) (d.select ⟨3, 1⟩) := by
  intro t d x behind
  obtain ⟨hresult, hmatch, hspares⟩ := failures_leave_the_document
  have hsize : 4 < t.size := by decide +kernel
  have hE : Coherent t.Mentions := MatchTree.coherent_of_effects (by decide +kernel)
  have ht : t.WellFormed := MatchTree.wellFormed_build brokenSteps
  have hmalformed : ∃ m, t.IsBelow m 4 ∧ t.IsMalformedAt m := by
    have hin : 2 ∈ t.postorder 4 := by decide +kernel
    obtain ⟨⟨a, happlies⟩, hbelow⟩ := ht.mem_postorder.mp hin
    have happlication := MatchTree.application?_eq_some.mpr happlies
    cases happlication
    exact ⟨2, hbelow, _, happlies, SharedEffect.isMalformed_iff.mpr (by decide +kernel)⟩
  have hfails : Fails x { evaluator := d } := (hmatch _ 4 hsize hE d).mpr (.inl hmalformed)
  refine ⟨hsize, hE, hfails, by decide +kernel, ?_, ?_⟩
  · obtain ⟨g, hbehind, -⟩ := (hspares t 4 { evaluator := d }).1 hfails
    rw [show behind = _ from hbehind]
    rfl
  · exact (hresult _ [] none).1.mpr (.inr fun hfits => absurd hfits.inOrder (by decide))

end SnippetEngine
