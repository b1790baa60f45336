-- What an evaluation reads of a document, and what it writes. It reads the cursor marker and the
-- declared variables, and it writes nothing but what it gathers. Neither the text nor the selection
-- nor an applied result has a say.
import SnippetEngine.Document.Environment
import SnippetEngine.Proofs.Session.Agreement

namespace SnippetEngine

theorem Bindings.mem_names {bs : Bindings} {name : Text} :
    name ∈ bs.names ↔ (bs.value? name).isSome := by
  simp [Bindings.names, Bindings.value?]

namespace Document

open Session

/-- Documents that an evaluation cannot tell apart. -/
structure SameScene (b c : Document) : Prop where
  marker : b.config.cursorMarker = c.config.cursorMarker
  declaredType : ∀ name, b.declaredType? name = c.declaredType? name

/-- The documents `b` and `c`, where the same things were gathered. -/
def InStep (b c d e : Document) : Prop :=
  ∃ g, d = { b with gathered := g } ∧ e = { c with gathered := g }

variable {b c : Document}

theorem SameScene.refl (b : Document) : SameScene b b := ⟨rfl, fun _ => rfl⟩

theorem SameScene.mem_namesInUse (h : SameScene b c) (g : Gathered) (scope : Bindings)
    (name : Text) : name ∈ namesInUse { b with gathered := g } scope ↔
      name ∈ namesInUse { c with gathered := g } scope := by
  have hdeclared : name ∈ b.declared.names ↔ name ∈ c.declared.names := by
    rw [Bindings.mem_names, Bindings.mem_names, ← declaredType?, ← declaredType?, h.declaredType]
  simp only [namesInUse, List.mem_append, hdeclared]

/-! ## Steps of a walk -/

/-- From the same gathered things the step gathers the same in both documents, answers the same,
and leaves the rest as it was. -/
def Parallel {α : Type} (b c : Document) (x : StateM Document α) : Prop :=
  ∀ g, ∃ a g', x.run { b with gathered := g } = (a, { b with gathered := g' }) ∧
    x.run { c with gathered := g } = (a, { c with gathered := g' })

theorem Parallel.agree {α : Type} {x : StateM Document α} (h : Parallel b c x) :
    Agree (InStep b c) (InStep b c) (liftM x) (liftM x) := by
  apply agree_state
  rintro _ _ ⟨g, rfl, rfl⟩
  obtain ⟨a, g', hb, hc⟩ := h g
  rw [hb, hc]
  exact ⟨rfl, g', rfl, rfl⟩

theorem parallel_pure {α : Type} (a : α) : Parallel b c (pure a) := fun g => ⟨a, g, rfl, rfl⟩

theorem parallel_bind {α β : Type} {x : StateM Document α} {f : α → StateM Document β}
    (hx : Parallel b c x) (hf : ∀ a, Parallel b c (f a)) : Parallel b c (x >>= f) := by
  intro g
  obtain ⟨a, g', hb, hc⟩ := hx g
  obtain ⟨a', g'', hb', hc'⟩ := hf a g'
  refine ⟨a', g'', ?_, ?_⟩
  · rw [StateT.run_bind, hb]
    exact hb'
  · rw [StateT.run_bind, hc]
    exact hc'

/-- A step that goes on with something that is the same in both documents. -/
theorem parallel_read {α β : Type} {f : Document → α} {k : α → StateM Document β}
    (hf : ∀ g : Gathered, f { b with gathered := g } = f { c with gathered := g })
    (hk : ∀ a, Parallel b c (k a)) : Parallel b c (do k (f (← get))) := by
  intro g
  obtain ⟨a, g', hb, hc⟩ := hk (f { b with gathered := g }) g
  refine ⟨a, g', hb, ?_⟩
  rw [hf] at hc
  exact hc

/-- A step that changes nothing but what was gathered, and looks at nothing else. -/
theorem parallel_modify {f : Document → Document} {k : Gathered → Gathered}
    (h : ∀ (d : Document) (g : Gathered),
      f { d with gathered := g } = { d with gathered := k g }) :
    Parallel b c (modify f) := by
  intro g
  exact ⟨(), k g, congrArg (Prod.mk ()) (h b g), congrArg (Prod.mk ()) (h c g)⟩

theorem parallel_freeName (h : SameScene b c) (desired : Text) (scope : Bindings) :
    Parallel b c (freeName desired scope) := by
  intro g
  have hname := FreeName.first_congr desired (h.mem_namesInUse g scope)
  refine ⟨_, _, rfl, ?_⟩
  rw [hname]
  rfl

theorem loopName_eq (scope : Bindings) :
    loopName scope = (do
      let d ← get
      (loopNames.find? fun name => !(d.namesInUse scope).contains name).elim
        (freeName ['i'] scope) pure) := by
  unfold loopName
  congr 1
  funext d
  rcases loopNames.find? fun name => !(d.namesInUse scope).contains name with _ | name
  · rfl
  · rfl

theorem parallel_loopName (h : SameScene b c) (scope : Bindings) :
    Parallel b c (loopName scope) := by
  rw [loopName_eq]
  apply parallel_read
    (f := fun d => loopNames.find? fun name => !(d.namesInUse scope).contains name)
    (k := fun found => found.elim (freeName ['i'] scope) pure)
  · intro g
    congr 1
    funext name
    rw [Bool.eq_iff_iff]
    simp [h.mem_namesInUse g scope name]
  · rintro (_ | name)
    · exact parallel_freeName h ['i'] scope
    · exact parallel_pure name

theorem parallel_requestImport (name : Text) : Parallel b c (modify (requestImport name)) := by
  apply parallel_modify
    (k := fun g => if name.isEmpty || g.imports.contains name then g
      else { g with imports := g.imports ++ [name] })
  intro d g
  unfold requestImport
  split <;> rfl

theorem parallel_openHelper (effectId : Text) : Parallel b c (modify (openHelper effectId)) :=
  parallel_modify (k := fun g =>
    { g with inHelper := true, helpers := g.helpers ++ [{ effectId, code := [] }] })
    fun _ _ => rfl

theorem parallel_closeHelper : Parallel b c (modify closeHelper) :=
  parallel_modify (k := fun g => { g with inHelper := false }) fun _ _ => rfl

theorem parallel_valueOf (h : SameScene b c) (site : Site) (scope : Bindings) (name : Text) :
    Parallel b c (valueOf site scope name) := by
  unfold valueOf
  rcases scope.value? name with _ | value
  · simp only
    split
    · exact parallel_read (fun _ => h.marker) parallel_pure
    split
    · exact parallel_pure _
    split
    · exact parallel_loopName h scope
    split
    · exact parallel_pure _
    split
    · exact parallel_pure _
    split
    · apply parallel_bind (parallel_openHelper _)
      intro _
      exact parallel_pure _
    split
    · apply parallel_bind parallel_closeHelper
      intro _
      exact parallel_pure _
    · exact parallel_pure _
  · exact parallel_pure _

theorem parallel_resultOf (h : SameScene b c) (site : Site) (scope : Bindings)
    (name argument : Text) : Parallel b c (resultOf site scope name argument) := by
  unfold resultOf
  split
  · apply parallel_bind (parallel_requestImport argument)
    intro _
    exact parallel_pure _
  split
  · exact parallel_read (f := fun d => d.declaredType? ((scope.value? argument).getD argument))
      (k := fun declared => pure ((Option.bind declared TypeName.element?).getD []))
      (fun _ => h.declaredType _) fun _ => parallel_pure _
  split
  · exact parallel_pure _
  split
  · exact parallel_freeName h argument scope
  · exact parallel_pure _

theorem parallel_computed (h : SameScene b c) (site : Site) (scope : Bindings)
    (formula : Formula) : Parallel b c (computed site scope formula) := by
  unfold computed
  split
  · exact parallel_valueOf h site scope _
  · exact parallel_resultOf h site scope _ _

theorem parallel_emit (text : Text) : Parallel b c (emit text) := by
  intro g
  by_cases hin : g.inHelper = true
  · refine ⟨[], { g with helpers := addToLast text g.helpers }, ?_⟩
    simp [emit, hin]
    exact ⟨rfl, rfl⟩
  · refine ⟨text, g, ?_⟩
    simp [emit, hin]
    exact ⟨rfl, rfl⟩

/-! ## Walks -/

theorem agree_evaluateFormula (h : SameScene b c) (site : Site) (scope : Bindings)
    (formula : Formula) : Agree (InStep b c) (InStep b c)
      (evaluateFormula site scope formula) (evaluateFormula site scope formula) := by
  unfold evaluateFormula
  apply agree_bind (parallel_computed h site scope formula).agree
  intro text
  exact (parallel_emit text).agree

theorem agreeOnPieces (h : SameScene b c) : AgreeOnPieces (InStep b c) where
  formula := agree_evaluateFormula h
  text _ _ text := (parallel_emit text).agree

/-! ## Matches -/

/-- The value of an application, where the code of the effect is compiled at each request. -/
def evaluateAfresh (t : MatchTree) (n : NodeId) (values : List Text) : Session Document Text := do
  match ← t.application? n with
  | none => throw (.notAnEffectNode n)
  | some a =>
    let names := a.effect.effect.parameters.map (·.name)
    let snippet ← Snippet.compile a.effect
    let text ← Evaluator.render t n a (Bindings.ofList (names.zip values)) snippet
    return Text.trim text

/-- A document that keeps no compiled snippets. -/
instance : Environment Document where
  name _ := Document.name
  reset := Document.reset
  beginEvaluation := Document.forget
  testMatch := Document.testMatch
  evaluateEffect := evaluateAfresh
  applyResult := Document.applyResult
  completions := Document.completions
  interpretToken := Document.interpretToken

theorem agreeOn_inStep (h : SameScene b c) (t : MatchTree) : AgreeOn t (InStep b c) := by
  intro n values
  apply agree_bind (agree_lift _)
  rintro (_ | a)
  · exact agree_throw _
  · apply agree_bind (agree_lift _)
    intro snippet
    apply agree_bind ((agreeOnPieces h).render t n a _ snippet)
    intro text
    exact agree_pure _

/-- Evaluations of a match give the same and gather the same, and gathering is all they do. -/
theorem evaluate_inStep (h : SameScene b c) (t : MatchTree) (n : NodeId) (overview : Bool) :
    outcome (Environment.evaluate t n overview) b = outcome (Environment.evaluate t n overview) c ∧
      InStep b c (final (Environment.evaluate t n overview) b)
        (final (Environment.evaluate t n overview) c) :=
  agree_evaluate (P := fun d e => d = b ∧ e = c) (Q := InStep b c)
    (fun _ _ ⟨hd, he⟩ => ⟨{}, by rw [hd]; rfl, by rw [he]; rfl⟩) (agreeOn_inStep h t) n overview
    b c ⟨rfl, rfl⟩

/-! ## Questions -/

theorem run_completions (t : MatchTree) (n : NodeId) (d : Document) :
    (completions t n).run.run d =
      ((t.argument? n).map fun argument => argument.elim [[]] d.completionsOf, d) := by
  unfold completions
  rw [run_get_bind]
  rcases t.argument? n with e | _ | a
  · rfl
  · rfl
  · rfl

/-! ## Results -/

/-- Documents that an application cannot tell apart. -/
structure SamePlace (b c : Document) : Prop where
  base : b.base = c.base
  config : b.config = c.config
  selection : b.selection = c.selection
  declaredType : ∀ name, b.declaredType? name = c.declaredType? name

theorem SamePlace.refl (b : Document) : SamePlace b b := ⟨rfl, rfl, rfl, fun _ => rfl⟩

theorem SamePlace.sameScene (h : SamePlace b c) : SameScene b c :=
  ⟨congrArg (·.cursorMarker) h.config, h.declaredType⟩

theorem run_applyResult (d : Document) (result : Text) (effect : Option Effect) :
    (applyResult result effect).run.run d =
      match checkTarget effect, d.around? with
      | .error e, _ => (.error e, d)
      | .ok _, none =>
        (.error (.applyFailed
          (.invalidSelection d.selection.start d.selection.stop d.base.byteSize)), d)
      | .ok _, some (before, after) =>
        (.ok (), d.write (d.insert before after result)) := by
  unfold applyResult
  rcases checkTarget effect with e | _
  · rfl
  · rw [ok_lift_bind, run_get_bind]
    rcases d.around? with _ | ⟨before, after⟩
    · rfl
    · rfl

theorem applyResult_eq_ok {d : Document} {result : Text} {effect : Option Effect} :
    outcome (applyResult result effect) d = .ok () ↔
      checkTarget effect = .ok () ∧ d.around?.isSome := by
  unfold outcome
  rw [run_applyResult]
  rcases checkTarget effect with e | _
  · simp
  · rcases d.around? with _ | ⟨before, after⟩
    · simp
    · simp

theorem final_applyResult {d : Document} {before after : Text} (result : Text)
    {effect : Option Effect} (htarget : checkTarget effect = .ok ())
    (hplace : d.around? = some (before, after)) :
    final (applyResult result effect) d = d.write (d.insert before after result) := by
  unfold final
  rw [run_applyResult, htarget, hplace]

theorem SamePlace.around? (h : SamePlace b c) (g : Gathered) :
    Document.around? { b with gathered := g } = Document.around? { c with gathered := g } := by
  unfold Document.around?
  rw [h.base, h.selection]

theorem SamePlace.insert (h : SamePlace b c) (g : Gathered) (before after result : Text) :
    Document.insert { b with gathered := g } before after result =
      Document.insert { c with gathered := g } before after result := by
  unfold Document.insert Document.placeHelpers Document.importBlock Document.missingImports
  rw [h.base, h.config]

/-- How an application ends in the documents `b` and `c`: the same is gathered, and the same is
applied if it succeeds. -/
inductive Ends (b c : Document) : Except Error Unit → Document → Document → Prop
  | applied (g : Gathered) (a : Applied) :
    Ends b c (.ok ()) (write { b with gathered := g } a) (write { c with gathered := g } a)
  | refused (e : Error) (g : Gathered) :
    Ends b c (.error e) { b with gathered := g } { c with gathered := g }

theorem Ends.of_ok {d e : Document} (h : Ends b c (.ok ()) d e) :
    ∃ g a, d = write { b with gathered := g } a ∧ e = write { c with gathered := g } a := by
  cases h with
  | applied g a => exact ⟨g, a, rfl, rfl⟩

theorem Ends.of_error {err : Error} {d e : Document} (h : Ends b c (.error err) d e) :
    InStep b c d e := by
  cases h with
  | refused _ g => exact ⟨g, rfl, rfl⟩

theorem applyResult_inStep (h : SamePlace b c) (result : Text) (effect : Option Effect)
    {d e : Document} (hde : InStep b c d e) :
    outcome (applyResult result effect) d = outcome (applyResult result effect) e ∧
      Ends b c (outcome (applyResult result effect) d) (final (applyResult result effect) d)
        (final (applyResult result effect) e) := by
  obtain ⟨g, rfl, rfl⟩ := hde
  unfold outcome final
  rw [run_applyResult, run_applyResult, ← h.around? g]
  rcases checkTarget effect with err | _
  · exact ⟨rfl, .refused err g⟩
  · rcases Document.around? { b with gathered := g } with _ | ⟨before, after⟩
    · refine ⟨?_, .refused _ g⟩
      simp only [h.selection, h.base]
    · refine ⟨rfl, ?_⟩
      simp only [← h.insert g]
      exact .applied g _

/-- Applications of a match have the same outcome. Where they succeed, the same is applied. -/
theorem apply_inStep (h : SamePlace b c) (t : MatchTree) (n : NodeId) :
    outcome (Environment.apply t n) b = outcome (Environment.apply t n) c ∧
      Ends b c (outcome (Environment.apply t n) b) (final (Environment.apply t n) b)
        (final (Environment.apply t n) c) := by
  obtain ⟨hresult, hstep⟩ := evaluate_inStep h.sameScene t n false
  unfold Environment.apply
  rcases hb : outcome (Environment.evaluate t n false) b with e | result
  · rw [hb] at hresult
    rw [outcome_bind_error _ hb, outcome_bind_error _ hresult.symm, final_bind_error _ hb,
      final_bind_error _ hresult.symm]
    obtain ⟨g, hd, he⟩ := hstep
    rw [hd, he]
    exact ⟨rfl, .refused e g⟩
  · rw [hb] at hresult
    rw [outcome_bind_ok _ hb, outcome_bind_ok _ hresult.symm, final_bind_ok _ hb,
      final_bind_ok _ hresult.symm]
    rcases t.application? n with e | application
    · obtain ⟨g, hd, he⟩ := hstep
      rw [hd, he]
      exact ⟨rfl, .refused e g⟩
    · exact applyResult_inStep h result _ hstep

/-! ## Documents that were used before -/

/-- The document `e` is `d` up to its result and what it gathered. -/
structure Touched (d e : Document) : Prop where
  base : e.base = d.base
  config : e.config = d.config
  selection : e.selection = d.selection
  declared : e.declared = d.declared

theorem Touched.refl (d : Document) : Touched d d := ⟨rfl, rfl, rfl, rfl⟩

theorem Touched.trans {d e f : Document} (hde : Touched d e) (hef : Touched e f) : Touched d f where
  base := hef.base.trans hde.base
  config := hef.config.trans hde.config
  selection := hef.selection.trans hde.selection
  declared := hef.declared.trans hde.declared

theorem Touched.samePlace {d e : Document} (h : Touched d e) : SamePlace d e where
  base := h.base.symm
  config := h.config.symm
  selection := h.selection.symm
  declaredType name := by
    unfold declaredType?
    rw [h.declared]

/-- A result takes the place of all that was gathered and shown. -/
theorem Touched.write_eq {d e : Document} (h : Touched d e) (g : Gathered) (a : Applied) :
    write { e with gathered := g } a = write { d with gathered := g } a := by
  obtain ⟨hbase, hconfig, hselection, hdeclared⟩ := h
  simp only [write, hbase, hconfig, hselection, hdeclared]

theorem touched_of_ends {d e : Document} {r : Except Error Unit} (h : Ends d d r e e) :
    Touched d e := by
  cases h with
  | applied => exact ⟨rfl, rfl, rfl, rfl⟩
  | refused => exact ⟨rfl, rfl, rfl, rfl⟩

theorem touched_apply (d : Document) (t : MatchTree) (n : NodeId) :
    Touched d (final (Environment.apply t n) d) :=
  touched_of_ends (apply_inStep (.refl d) t n).2

/-- An application that succeeds leaves nothing of the results before it. -/
theorem apply_touched {d e : Document} (h : Touched d e) {t : MatchTree} {n : NodeId}
    (hok : outcome (Environment.apply t n) d = .ok ()) :
    final (Environment.apply t n) e = final (Environment.apply t n) d := by
  obtain ⟨_, hends⟩ := apply_inStep h.samePlace t n
  rw [hok] at hends
  obtain ⟨g, a, hd, he⟩ := hends.of_ok
  rw [hd, he, h.write_eq]

/-- A second application of a match changes nothing. -/
theorem apply_twice (d : Document) (t : MatchTree) (n : NodeId) :
    final (Environment.apply t n) (final (Environment.apply t n) d) =
      final (Environment.apply t n) d := by
  rcases hr : outcome (Environment.apply t n) d with err | _
  · obtain ⟨_, hends⟩ := apply_inStep (touched_apply d t n).samePlace t n
    rw [hr] at hends
    obtain ⟨g, hd, he⟩ := hends.of_error
    rw [he, hd]
  · exact apply_touched (touched_apply d t n) hr

end Document

end SnippetEngine
