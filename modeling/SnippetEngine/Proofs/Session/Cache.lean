-- The cache of compiled snippets. Where effects with one id have one code, the cache cannot be
-- seen: a session with it has the outcome, and leaves the document, of a session that compiles the
-- code of an effect at each request.
import SnippetEngine.Proofs.Document.Evaluation
import SnippetEngine.Proofs.Match.Nodes

namespace SnippetEngine

/-- Effects with one id have one code. -/
def Coherent (E : SharedEffect → Prop) : Prop :=
  ∀ e f, E e → E f → e.effect.id = f.effect.id → e.effect.code = f.effect.code

/-- The tree has an application of the effect. -/
def MatchTree.Mentions (t : MatchTree) (e : SharedEffect) : Prop := ∃ n a, t.Applies n a ∧ a.effect = e

/-- The effects of the applications in the tree, in the order of the nodes. -/
def MatchTree.effects (t : MatchTree) : List SharedEffect :=
  t.nodes.toList.filterMap fun node =>
    match node.kind with
    | .application a => some a.effect
    | .argument _ => none

theorem MatchTree.mem_effects {t : MatchTree} {e : SharedEffect} (h : t.Mentions e) :
    e ∈ t.effects := by
  obtain ⟨n, a, ⟨node, hn, hk⟩, rfl⟩ := h
  exact List.mem_filterMap.mpr ⟨node, (Array.mem_of_getElem? hn).val, by rw [hk]⟩

theorem MatchTree.coherent_of_effects {t : MatchTree}
    (h : ∀ e ∈ t.effects, ∀ f ∈ t.effects,
      e.effect.id = f.effect.id → e.effect.code = f.effect.code) : Coherent t.Mentions :=
  fun e f he hf => h e (mem_effects he) f (mem_effects hf)

/-! ## What a document sees of a snippet -/

namespace Snippet

/-- The pieces, each with the id of its effect. -/
def outline (snippet : Snippet) : List (Text × Piece) :=
  snippet.map fun s => (s.effect.effect.id, s.piece)

theorem outline_compile (e : SharedEffect) :
    (compile e).map outline =
      (piecesOf e.effect.id e.effect.code).map (List.map (Prod.mk e.effect.id)) := by
  unfold compile
  rcases piecesOf e.effect.id e.effect.code with err | pieces
  · rfl
  · simp [Except.map, outline, Function.comp_def]

/-- Effects with the same id and the same code look the same. -/
theorem outline_compile_congr {e f : SharedEffect} (hid : e.effect.id = f.effect.id)
    (hcode : e.effect.code = f.effect.code) :
    (compile e).map outline = (compile f).map outline := by
  rw [outline_compile, outline_compile, hid, hcode]

end Snippet

namespace Document

open Session

/-- Of the effect that a piece belongs to, only the id counts, and of the application that is
evaluated, only the effect. -/
theorem evaluatePiece_congr {x y : Site} (hid : x.owner.effect.id = y.owner.effect.id)
    (heffect : x.application.effect = y.application.effect) (scope : Bindings) (piece : Piece) :
    (Evaluator.evaluatePiece x scope piece : Session Document (Text × Bindings)) =
      Evaluator.evaluatePiece y scope piece := by
  have hvalue : ∀ name, valueOf x scope name = valueOf y scope name := by
    intro name
    unfold valueOf
    rw [hid, heffect]
  have hresult : ∀ name argument,
      resultOf x scope name argument = resultOf y scope name argument := by
    intro name argument
    unfold resultOf
    rw [heffect]
  have hcomputed : ∀ formula, computed x scope formula = computed y scope formula := by
    intro formula
    unfold computed
    simp only [hvalue, hresult]
  rcases piece with text | formula
  · rfl
  · have hformula : evaluateFormula x scope formula = evaluateFormula y scope formula := by
      unfold evaluateFormula
      rw [hcomputed]
    change (evaluateFormula x scope formula >>= _) = evaluateFormula y scope formula >>= _
    rw [hformula]

theorem render_congr {snippet other : Snippet} (h : snippet.outline = other.outline)
    {a b : Application} (heffect : a.effect = b.effect) (t u : MatchTree) (n m : NodeId)
    (scope : Bindings) : (Evaluator.render t n a scope snippet : Session Document Text) =
      Evaluator.render u m b scope other := by
  induction snippet generalizing other scope with
  | nil =>
    rcases other with _ | ⟨o, os⟩
    · rfl
    · cases h
  | cons s ss ih =>
    rcases other with _ | ⟨o, os⟩
    · cases h
    · simp only [Snippet.outline, List.map_cons, List.cons.injEq, Prod.mk.injEq] at h
      obtain ⟨⟨hid, hpiece⟩, hrest⟩ := h
      unfold Evaluator.render
      rw [evaluatePiece_congr (y := ⟨u, m, b, o.effect⟩) hid heffect, hpiece]
      congr 1
      funext result
      simp only [ih hrest]

end Document

/-! ## The cache -/

namespace Synthesizer

open Session

variable {E : SharedEffect → Prop}

/-- Each snippet in the cache is the compiled code of one of the effects, which has its id. -/
def Caches (E : SharedEffect → Prop) (s : Synthesizer Document) : Prop :=
  ∀ entry ∈ s.cache, ∃ e, E e ∧ e.effect.id = entry.1 ∧ Snippet.compile e = .ok entry.2

/-- The document of the session, whose cache holds nothing but snippets of the effects. -/
def Mirrors (E : SharedEffect → Prop) (s : Synthesizer Document) (d : Document) : Prop :=
  Caches E s ∧ s.evaluator = d

theorem run_snippet {ε : Type} (e : SharedEffect) (s : Synthesizer ε) :
    (snippet e).run.run s = match s.cached? e.effect.id, Snippet.compile e with
      | some found, _ => (.ok found, s)
      | none, .ok new => (.ok new, { s with cache := s.cache ++ [(e.effect.id, new)] })
      | none, .error err => (.error err, s) := by
  unfold snippet
  rw [run_get_bind]
  rcases s.cached? e.effect.id with _ | found
  · rcases Snippet.compile e with err | new
    · rfl
    · rfl
  · rfl

theorem exists_of_cached? {s : Synthesizer Document} (h : Caches E s) {id : Text}
    {found : Snippet} (hf : s.cached? id = some found) :
    ∃ e, E e ∧ e.effect.id = id ∧ Snippet.compile e = .ok found := by
  unfold cached? at hf
  obtain ⟨entry, hentry, rfl⟩ := Option.map_eq_some_iff.mp hf
  obtain ⟨e, he, hid, hcompile⟩ := h entry (List.mem_of_find?_eq_some hentry)
  have hkey := List.find?_some hentry
  exact ⟨e, he, hid.trans (by simpa using hkey), hcompile⟩

/-- The snippet that a session has for an effect: what its id keeps, or else its compiled code. -/
def served (s : Synthesizer Document) (e : SharedEffect) : Except Error Snippet :=
  (s.cached? e.effect.id).elim (Snippet.compile e) .ok

theorem run_snippet_of_error {s : Synthesizer Document} {e : SharedEffect} {err : Error}
    (h : s.served e = .error err) : (snippet e).run.run s = (.error err, s) := by
  unfold served at h
  rw [run_snippet]
  rcases hs : s.cached? e.effect.id with _ | found
  · rw [hs] at h
    change Snippet.compile e = .error err at h
    rw [h]
  · rw [hs] at h
    cases h

/-- A snippet that was asked for is kept, if it was not before, and is served to every effect with
that id from then on. -/
theorem run_snippet_of_ok {s : Synthesizer Document} {e : SharedEffect} {found : Snippet}
    (h : s.served e = .ok found) : ∃ cache, (snippet e).run.run s = (.ok found, { s with cache }) ∧
      (cache = s.cache ∨
        Snippet.compile e = .ok found ∧ cache = s.cache ++ [(e.effect.id, found)]) ∧
      ∀ f, served { s with cache } f =
        if f.effect.id = e.effect.id then .ok found else s.served f := by
  unfold served at h
  rw [run_snippet]
  rcases hs : s.cached? e.effect.id with _ | kept
  · rw [hs] at h
    change Snippet.compile e = .ok found at h
    rw [h]
    refine ⟨_, rfl, .inr ⟨rfl, rfl⟩, fun f => ?_⟩
    unfold cached? at hs
    unfold served cached?
    rw [List.find?_append]
    by_cases hid : f.effect.id = e.effect.id
    · rw [hid, Option.map_eq_none_iff.mp hs]
      simp
    · simp [hid, Ne.symm hid]
  · rw [hs] at h
    cases h
    refine ⟨_, rfl, .inl rfl, fun f => ?_⟩
    by_cases hid : f.effect.id = e.effect.id
    · unfold served
      rw [if_pos hid, hid]
      exact congrArg (Option.elim · _ _) hs
    · rw [if_neg hid]

/-- What is served looks like the compiled code. -/
theorem outline_served (hE : Coherent E) {s : Synthesizer Document} (hs : Caches E s)
    {e : SharedEffect} (he : E e) :
    (s.served e).map Snippet.outline = (Snippet.compile e).map Snippet.outline := by
  unfold served
  rcases hf : s.cached? e.effect.id with _ | found
  · rfl
  · obtain ⟨f, hfE, hid, hcompile⟩ := exists_of_cached? hs hf
    rw [← Snippet.outline_compile_congr hid (hE f e hfE he hid), hcompile]
    rfl

/-- A snippet that was asked for looks like the compiled code, and the cache keeps nothing else. -/
theorem snippet_mirrors (hE : Coherent E) {e : SharedEffect} (he : E e)
    {s : Synthesizer Document} {d : Document} (h : Mirrors E s d) :
    (outcome (snippet e) s).map Snippet.outline = (Snippet.compile e).map Snippet.outline ∧
      Mirrors E (final (snippet e) s) d := by
  obtain ⟨hcache, hdoc⟩ := h
  have hlook := outline_served hE hcache he
  unfold outcome final
  rcases hs : s.served e with err | found
  · rw [run_snippet_of_error hs]
    rw [hs] at hlook
    exact ⟨hlook, hcache, hdoc⟩
  · obtain ⟨cache, hrun, hkept, _⟩ := run_snippet_of_ok hs
    rw [hrun]
    rw [hs] at hlook
    refine ⟨hlook, ?_, hdoc⟩
    intro entry hentry
    rcases hkept with rfl | ⟨hcompile, rfl⟩
    · exact hcache entry hentry
    · rcases List.mem_append.mp hentry with hold | hnew
      · exact hcache entry hold
      · rw [List.mem_singleton.mp hnew]
        exact ⟨e, he, rfl, hcompile⟩

theorem run_onEvaluator {ε α : Type} (x : Session ε α) (s : Synthesizer ε) :
    (onEvaluator x).run.run s =
      ((x.run.run s.evaluator).1, { s with evaluator := (x.run.run s.evaluator).2 }) := rfl

theorem agree_onEvaluator {α : Type} (x : Session Document α) :
    Agree (Mirrors E) (Mirrors E) (onEvaluator x) x := by
  rintro s _ ⟨hcache, rfl⟩
  exact ⟨rfl, hcache, rfl⟩

/-- A change of the evaluator alone. -/
theorem agree_change {f : Synthesizer Document → Synthesizer Document} {g : Document → Document}
    (h : ∀ s, f s = { s with evaluator := g s.evaluator }) :
    Agree (Mirrors E) (Mirrors E) (modify f) (modify g) := by
  apply agree_modify
  rintro s _ ⟨hcache, rfl⟩
  rw [h]
  exact ⟨hcache, rfl⟩

theorem agree_evaluateEffect (hE : Coherent E) {t : MatchTree} (ht : ∀ e, t.Mentions e → E e) :
    AgreeOn t (Mirrors E) := by
  intro n values
  change Agree _ _ (evaluateEffect t n values) (Document.evaluateAfresh t n values)
  unfold evaluateEffect Document.evaluateAfresh
  rcases ha : t.application? n with err | _ | a
  · exact agree_throw err
  · exact agree_throw _
  · simp only [ok_lift_bind]
    have he : E a.effect := ht _ ⟨n, a, MatchTree.application?_eq_some.mp ha, rfl⟩
    apply agree_bind_of_view Snippet.outline fun s d h => snippet_mirrors hE he h
    intro found new hlook
    rw [← Document.render_congr hlook (rfl : a.effect = a.effect) t t n n]
    apply agree_bind (agree_onEvaluator _)
    intro text
    exact agree_pure _

theorem Caches.mono {F : SharedEffect → Prop} {s : Synthesizer Document} (h : Caches E s)
    (hEF : ∀ e, E e → F e) : Caches F s := by
  intro entry hentry
  obtain ⟨e, he, hrest⟩ := h entry hentry
  exact ⟨e, hEF e he, hrest⟩

/-! ## Matches -/

section Matches

variable {t : MatchTree} {s : Synthesizer Document}

theorem agree_evaluate_document (hE : Coherent E) (ht : ∀ e, t.Mentions e → E e) (n : NodeId)
    (overview : Bool) : Agree (Mirrors E) (Mirrors E)
      (Environment.evaluate t n overview : Session (Synthesizer Document) Text)
      (Environment.evaluate t n overview : Session Document Text) := by
  apply agree_evaluate
  · rintro s _ ⟨hcache, rfl⟩
    exact ⟨hcache, rfl⟩
  · exact agree_evaluateEffect hE ht

theorem agree_apply_document (hE : Coherent E) (ht : ∀ e, t.Mentions e → E e) (n : NodeId) :
    Agree (Mirrors E) (Mirrors E) (Environment.apply t n : Session (Synthesizer Document) Unit)
      (Environment.apply t n : Session Document Unit) := by
  apply agree_apply
  · rintro s _ ⟨hcache, rfl⟩
    exact ⟨hcache, rfl⟩
  · exact agree_evaluateEffect hE ht
  · intro result effect
    exact agree_onEvaluator _

/-- A match is evaluated as if nothing were cached. -/
theorem evaluate_eq_document (hE : Coherent E) (ht : ∀ e, t.Mentions e → E e) (hs : Caches E s)
    (n : NodeId) (overview : Bool) :
    outcome (Environment.evaluate t n overview) s =
        outcome (Environment.evaluate t n overview) s.evaluator ∧
      (final (Environment.evaluate t n overview) s).evaluator =
        final (Environment.evaluate t n overview) s.evaluator ∧
      Caches E (final (Environment.evaluate t n overview) s) := by
  obtain ⟨hout, hcache, hdoc⟩ := agree_evaluate_document hE ht n overview s s.evaluator ⟨hs, rfl⟩
  exact ⟨hout, hdoc, hcache⟩

/-- A match is applied as if nothing were cached. -/
theorem apply_eq_document (hE : Coherent E) (ht : ∀ e, t.Mentions e → E e) (hs : Caches E s)
    (n : NodeId) :
    outcome (Environment.apply t n) s = outcome (Environment.apply t n) s.evaluator ∧
      (final (Environment.apply t n) s).evaluator = final (Environment.apply t n) s.evaluator ∧
      Caches E (final (Environment.apply t n) s) := by
  obtain ⟨hout, hcache, hdoc⟩ := agree_apply_document hE ht n s s.evaluator ⟨hs, rfl⟩
  exact ⟨hout, hdoc, hcache⟩

end Matches

/-! ## Sessions with caches of their own -/

/-- Sessions that have snippets that look alike for the effects of a match. -/
def ServedAlike (t : MatchTree) (s u : Synthesizer Document) : Prop :=
  ∀ e, t.Mentions e → (s.served e).map Snippet.outline = (u.served e).map Snippet.outline

section Alike

variable {b c : Document} {t : MatchTree} {n : NodeId}

/-- Sessions that are served alike, on the documents `b` and `c` with the same things gathered. -/
def InStep (t : MatchTree) (b c : Document) (s u : Synthesizer Document) : Prop :=
  ServedAlike t s u ∧ Document.InStep b c s.evaluator u.evaluator

theorem snippet_inStep {e : SharedEffect} (he : t.Mentions e) {s u : Synthesizer Document}
    (h : InStep t b c s u) :
    (outcome (snippet e) s).map Snippet.outline = (outcome (snippet e) u).map Snippet.outline ∧
      InStep t b c (final (snippet e) s) (final (snippet e) u) := by
  obtain ⟨halike, hdoc⟩ := h
  have hlook := halike e he
  unfold outcome final
  rcases hs : s.served e with err | found
  · rcases hu : u.served e with err' | new
    · rw [run_snippet_of_error hs, run_snippet_of_error hu]
      rw [hs, hu] at hlook
      exact ⟨hlook, halike, hdoc⟩
    · rw [hs, hu] at hlook
      cases hlook
  · rcases hu : u.served e with err' | new
    · rw [hs, hu] at hlook
      cases hlook
    · rw [hs, hu] at hlook
      obtain ⟨_, hruns, _, hservess⟩ := run_snippet_of_ok hs
      obtain ⟨_, hrunu, _, hservesu⟩ := run_snippet_of_ok hu
      rw [hruns, hrunu]
      refine ⟨hlook, fun f hf => ?_, hdoc⟩
      rw [hservess, hservesu]
      by_cases hid : f.effect.id = e.effect.id
      · rw [if_pos hid, if_pos hid]
        exact hlook
      · rw [if_neg hid, if_neg hid]
        exact halike f hf

theorem agree_onEvaluator_inStep {α : Type} {x : Session Document α}
    (h : Agree (Document.InStep b c) (Document.InStep b c) x x) :
    Agree (InStep t b c) (InStep t b c) (onEvaluator x) (onEvaluator x) := by
  rintro s u ⟨halike, hdoc⟩
  obtain ⟨hout, hfinal⟩ := h _ _ hdoc
  exact ⟨hout, halike, hfinal⟩

theorem agreeOn_servedAlike (h : Document.SameScene b c) (t : MatchTree) :
    AgreeOn t (InStep t b c) := by
  intro n values
  change Agree _ _ (evaluateEffect t n values) (evaluateEffect t n values)
  unfold evaluateEffect
  rcases ha : t.application? n with err | _ | a
  · exact agree_throw err
  · exact agree_throw _
  · simp only [ok_lift_bind]
    have hmentions : t.Mentions a.effect := ⟨n, a, MatchTree.application?_eq_some.mp ha, rfl⟩
    apply agree_bind_of_view Snippet.outline fun s u hsu => snippet_inStep hmentions hsu
    intro found new hlook
    rw [← Document.render_congr hlook (rfl : a.effect = a.effect) t t n n]
    apply agree_bind (agree_onEvaluator_inStep ((Document.agreeOnPieces h).render t n a _ found))
    intro text
    exact agree_pure _

/-- Sessions that are served alike evaluate a match to the same and gather the same. -/
theorem evaluate_servedAlike {s u : Synthesizer Document} (halike : ServedAlike t s u)
    (h : Document.SameScene s.evaluator u.evaluator) (n : NodeId) (overview : Bool) :
    outcome (Environment.evaluate t n overview) s = outcome (Environment.evaluate t n overview) u ∧
      Document.InStep s.evaluator u.evaluator
        (final (Environment.evaluate t n overview) s).evaluator
        (final (Environment.evaluate t n overview) u).evaluator := by
  have hagree : Agree (fun s' u' => s' = s ∧ u' = u) (InStep t s.evaluator u.evaluator)
      (Environment.evaluate t n overview) (Environment.evaluate t n overview) := by
    refine agree_evaluate (fun s' u' hsu => ?_) (agreeOn_servedAlike h t) n overview
    obtain ⟨rfl, rfl⟩ := hsu
    exact ⟨halike, {}, rfl, rfl⟩
  obtain ⟨hout, _, hdoc⟩ := hagree s u ⟨rfl, rfl⟩
  exact ⟨hout, hdoc⟩

/-- What an application of a match comes to: its value `result`, the things `g` gathered for it, and
the texts around the place where it goes. -/
structure Yields (t : MatchTree) (n : NodeId) (s : Synthesizer Document) (result : Text)
    (g : Gathered) (before after : Text) : Prop where
  value : outcome (Environment.evaluate t n false) s = .ok result
  gathers : (final (Environment.evaluate t n false) s).evaluator = { s.evaluator with gathered := g }
  target : ∃ a, t.application? n = .ok a ∧
    Document.checkTarget (a.map (·.effect.effect)) = .ok ()
  place : s.evaluator.around? = some (before, after)

/-- An application that comes to something succeeds, and writes it. -/
theorem Yields.apply {s : Synthesizer Document} {result : Text} {g : Gathered}
    {before after : Text} (h : Yields t n s result g before after) :
    outcome (Environment.apply t n) s = .ok () ∧
      (final (Environment.apply t n) s).evaluator =
        Document.write { s.evaluator with gathered := g }
          (Document.insert { s.evaluator with gathered := g } before after result) := by
  obtain ⟨a, ha, htarget⟩ := h.target
  unfold Environment.apply
  rw [outcome_bind_ok _ h.value, final_bind_ok _ h.value, ha]
  have hdoc := h.gathers
  generalize final (Environment.evaluate t n false) s = u at hdoc
  constructor
  · change outcome (Document.applyResult result _) u.evaluator = .ok ()
    rw [hdoc, Document.applyResult_eq_ok]
    exact ⟨htarget, Option.isSome_iff_exists.mpr ⟨_, h.place⟩⟩
  · change final (Document.applyResult result _) u.evaluator = _
    rw [hdoc]
    exact Document.final_applyResult result htarget h.place

/-- An application that succeeds comes to something. -/
theorem exists_yields {s : Synthesizer Document}
    (hok : outcome (Environment.apply t n) s = .ok ()) :
    ∃ result g before after, Yields t n s result g before after := by
  obtain ⟨_, g, hgathers, _⟩ := evaluate_servedAlike (fun _ _ => rfl) (.refl s.evaluator) n false
  unfold Environment.apply at hok
  rcases hr : outcome (Environment.evaluate t n false) s with e | result
  · rw [outcome_bind_error _ hr] at hok
    cases hok
  · rw [outcome_bind_ok _ hr] at hok
    rcases ha : t.application? n with e | a
    · rw [ha] at hok
      cases hok
    · rw [ha] at hok
      change outcome (Document.applyResult result _)
        (final (Environment.evaluate t n false) s).evaluator = .ok () at hok
      rw [Document.applyResult_eq_ok] at hok
      obtain ⟨htarget, hplace⟩ := hok
      have hplace' : s.evaluator.around?.isSome := by
        rw [hgathers] at hplace
        exact hplace
      obtain ⟨⟨before, after⟩, hba⟩ := Option.isSome_iff_exists.mp hplace'
      exact ⟨result, g, before, after, hr, hgathers, ⟨a, ha, htarget⟩, hba⟩

/-- A session that is served alike comes to the same wherever the result goes, if its document
has the same names and markers. -/
theorem Yields.of_servedAlike {s u : Synthesizer Document} {result : Text} {g : Gathered}
    {before after before' after' : Text} (h : Yields t n s result g before after)
    (halike : ServedAlike t s u) (hscene : Document.SameScene s.evaluator u.evaluator)
    (hplace : u.evaluator.around? = some (before', after')) :
    Yields t n u result g before' after' := by
  obtain ⟨hr, g', hs, hu⟩ := evaluate_servedAlike halike hscene n false
  have hg : g' = g := congrArg (·.gathered) (hs.symm.trans h.gathers)
  rw [hg] at hu
  exact ⟨hr.symm.trans h.value, hu, h.target, hplace⟩

end Alike

end Synthesizer

end SnippetEngine
