-- What a piece of code can see. An evaluator is asked for the pieces of a snippet one after
-- another, in the order of the code, and each time the variables are the parameters and what was
-- captured before. So what it answers for the first pieces does not depend on the pieces behind
-- them.
import SnippetEngine.Proofs.Document.Contributions
import SnippetEngine.Proofs.Session.Parameters
import SnippetEngine.Proofs.Session.States
import SnippetEngine.Rehearsal.Scripted

namespace SnippetEngine

open Session

/-! ## Variables in order -/

namespace Bindings

/-- The names stand once each, in the order in which they come first. -/
theorem names_ofList (pairs : List (Text × Text)) :
    (ofList pairs).names = (pairs.map Prod.fst).eraseDups := by
  induction pairs using List.reverseRecOn with
  | nil => rfl
  | append_singleton pairs p ih =>
    rw [ofList_append_singleton, List.map_append, List.eraseDups_append, ← ih]
    have hmem : p.1 ∈ (ofList pairs).names ↔ p.1 ∈ pairs.map Prod.fst := by
      rw [ih, List.mem_eraseDups]
    by_cases h : p.1 ∈ pairs.map Prod.fst
    · rw [names_bind_of_mem (hmem.mpr h)]
      simp [List.removeAll, h]
    · rw [bind_of_not_mem (mt hmem.mp h)]
      simp [List.removeAll, List.eraseDups_cons, h, names]

/-- A name has the text that it is bound to last. -/
theorem value?_ofList (pairs : List (Text × Text)) (x : Text) :
    (ofList pairs).value? x = value? pairs.reverse x := by
  induction pairs using List.reverseRecOn with
  | nil => rfl
  | append_singleton pairs p ih =>
    rw [value?_ofList_append_singleton, ih, List.reverse_append]
    split
    next h => simp [value?, h]
    next h => simp [value?, h]

theorem ofList_append_kept (pairs : List (Text × Text)) (capture : Option Text) (text : Text) :
    ofList (pairs ++ (capture.map (·, text)).toList) = (ofList pairs).keep capture text := by
  rcases capture with _ | name
  · simp [keep]
  · exact ofList_append_singleton pairs (name, text)

end Bindings

/-! ## Enquiries -/

/-- A call of an evaluator for a piece: what it gets to see, what it answers, and what becomes of
it. -/
structure Enquiry (ε : Type) where
  site : Site
  scope : Bindings
  piece : Piece
  before : ε
  answer : Except Error Text
  behind : ε

namespace Enquiry

variable {ε : Type}

/-- The node of the snippet that the call is for. -/
def asked (q : Enquiry ε) : SnippetNode := ⟨q.site.owner, q.piece⟩

/-- The variable that keeps the answer, with the answer. -/
def captured (q : Enquiry ε) : List (Text × Text) :=
  match q.answer with
  | .ok text => (q.piece.capture?.map (·, text)).toList
  | .error _ => []

/-- The answers one behind another. The first failure is the failure of the whole. -/
def textOf : List (Enquiry ε) → Except Error Text
  | [] => .ok []
  | q :: es =>
    match q.answer with
    | .ok text => (textOf es).map (text ++ ·)
    | .error err => .error err

theorem textOf_eq_ok {es : List (Enquiry ε)} {texts : List Text}
    (h : es.map (·.answer) = texts.map .ok) : textOf es = .ok texts.flatten := by
  induction es generalizing texts with
  | nil =>
    cases List.map_eq_nil_iff.mp h.symm
    rfl
  | cons q es ih =>
    obtain ⟨text, rest, rfl, hq, hrest⟩ := List.map_eq_cons_iff.mp h.symm
    change .ok text = q.answer at hq
    unfold textOf
    rw [← hq, ih hrest.symm]
    rfl

/-- The calls are for the same piece, but maybe at another application and for the code of another
effect. Nothing else tells them apart. -/
structure IsLike (q r : Enquiry ε) : Prop where
  scope : q.scope = r.scope
  piece : q.piece = r.piece
  before : q.before = r.before
  answer : q.answer = r.answer
  behind : q.behind = r.behind

end Enquiry

section Calls

variable {ε : Type} [Evaluator ε]

/-- The call of an evaluator for a piece. -/
def Evaluator.ask (site : Site) (scope : Bindings) : Piece → Session ε Text
  | .text text => evaluateText site scope text
  | .formula formula => evaluateFormula site scope formula

theorem Evaluator.evaluatePiece_eq (site : Site) (scope : Bindings) (piece : Piece) :
    (evaluatePiece site scope piece : Session ε (Text × Bindings)) =
      ask site scope piece >>= fun text => pure (text, scope.keep piece.capture? text) := by
  rcases piece with text | ⟨name, arguments, _ | v⟩
  · rfl
  · rfl
  · rfl

/-- The text of a snippet: the first node, and then the others with what it captured. -/
theorem Evaluator.run_render_cons (t : MatchTree) (n : NodeId) (a : Application) (scope : Bindings)
    (s : SnippetNode) (ss : Snippet) (e : ε) :
    (render t n a scope (s :: ss) : Session ε Text).run.run e =
      match (ask ⟨t, n, a, s.effect⟩ scope s.piece : Session ε Text).run.run e with
      | (.error err, e') => (.error err, e')
      | (.ok text, e') =>
        let r := (render t n a (scope.keep s.piece.capture? text) ss : Session ε Text).run.run e'
        (r.1.map (text ++ ·), r.2) := by
  rw [render, evaluatePiece_eq, bind_assoc]
  rcases hrun : (ask ⟨t, n, a, s.effect⟩ scope s.piece : Session ε Text).run.run e
    with ⟨err | text, e'⟩
  · rw [run_bind_error _ (congrArg Prod.fst hrun)]
    exact congrArg (Prod.mk _) (congrArg Prod.snd hrun)
  · rw [run_bind_ok _ (congrArg Prod.fst hrun), pure_bind]
    have hbehind := congrArg Prod.snd hrun
    unfold final
    rw [hbehind]
    exact Prod.ext (outcome_bind_pure _ _ _) (final_bind_pure _ _ _)

variable {t u : MatchTree} {n m : NodeId} {a b : Application}

/-- The calls for the nodes of a snippet, up to the first that fails. -/
def enquiries (t : MatchTree) (n : NodeId) (a : Application) :
    Bindings → Snippet → ε → List (Enquiry ε)
  | _, [], _ => []
  | scope, s :: ss, e =>
    match (Evaluator.ask ⟨t, n, a, s.effect⟩ scope s.piece).run.run e with
    | (.error err, e') => [⟨⟨t, n, a, s.effect⟩, scope, s.piece, e, .error err, e'⟩]
    | (.ok text, e') => ⟨⟨t, n, a, s.effect⟩, scope, s.piece, e, .ok text, e'⟩ ::
        enquiries t n a (scope.keep s.piece.capture? text) ss e'

theorem site_of_mem_enquiries {scope : Bindings} {snippet : Snippet} {e : ε} :
    ∀ q ∈ enquiries t n a scope snippet e,
      q.site.tree = t ∧ q.site.node = n ∧ q.site.application = a := by
  fun_induction enquiries t n a scope snippet e with
  | case1 => exact List.forall_mem_nil _
  | case2 => exact List.forall_mem_singleton.mpr ⟨rfl, rfl, rfl⟩
  | case3 _ _ _ _ _ _ _ ih => exact List.forall_mem_cons.mpr ⟨⟨rfl, rfl, rfl⟩, ih⟩

/-- What a call gives is what the evaluator gives in that place. -/
theorem run_of_mem_enquiries {scope : Bindings} {snippet : Snippet} {e : ε} :
    ∀ q ∈ enquiries t n a scope snippet e,
      (Evaluator.ask q.site q.scope q.piece).run.run q.before = (q.answer, q.behind) := by
  fun_induction enquiries t n a scope snippet e with
  | case1 => exact List.forall_mem_nil _
  | case2 _ _ _ _ _ _ hrun => exact List.forall_mem_singleton.mpr hrun
  | case3 _ _ _ _ _ _ hrun ih => exact List.forall_mem_cons.mpr ⟨hrun, ih⟩

theorem asked_enquiries {scope : Bindings} {snippet : Snippet} {e : ε} :
    (enquiries t n a scope snippet e).map Enquiry.asked <+: snippet := by
  fun_induction enquiries t n a scope snippet e with
  | case1 => exact List.prefix_rfl
  | case2 _ s ss => exact ⟨ss, rfl⟩
  | case3 _ _ _ _ _ _ _ ih => exact List.cons_prefix_cons.mpr ⟨rfl, ih⟩

/-- A call sees what was bound before the code and what the calls before it captured. -/
theorem scope_of_getElem?_enquiries {pairs : List (Text × Text)} {scope : Bindings}
    {snippet : Snippet} {e : ε} (hscope : scope = Bindings.ofList pairs) {k : Nat} {q : Enquiry ε}
    (hq : (enquiries t n a scope snippet e)[k]? = some q) :
    q.scope = Bindings.ofList
      (pairs ++ ((enquiries t n a scope snippet e).take k).flatMap Enquiry.captured) := by
  fun_induction enquiries t n a scope snippet e generalizing pairs k with
  | case1 => cases hq
  | case2 =>
    cases k with
    | zero =>
      cases hq
      simpa using hscope
    | succ k => cases hq
  | case3 scope s ss e text e' hrun ih =>
    cases k with
    | zero =>
      cases hq
      simpa using hscope
    | succ k =>
      have hkept : scope.keep s.piece.capture? text =
          Bindings.ofList (pairs ++ (s.piece.capture?.map (·, text)).toList) := by
        rw [Bindings.ofList_append_kept, hscope]
      rw [List.take_succ_cons, List.flatMap_cons, ← List.append_assoc]
      exact ih hkept hq

/-- Each call begins where the call before it left the evaluator. -/
theorem states_enquiries {scope : Bindings} {snippet : Snippet} {e : ε} :
    let es := enquiries t n a scope snippet e
    es.map (·.before) ++ [es.foldl (fun _ q => q.behind) e] = e :: es.map (·.behind) := by
  intro es
  unfold es
  fun_induction enquiries t n a scope snippet e with
  | case1 => rfl
  | case2 => rfl
  | case3 _ _ _ e _ _ _ ih => exact congrArg (e :: ·) ih

/-- If no call fails, each node has its call. -/
theorem asked_enquiries_of_ok {scope : Bindings} {snippet : Snippet} {e : ε}
    (h : ∀ q ∈ enquiries t n a scope snippet e, ∃ text, q.answer = .ok text) :
    (enquiries t n a scope snippet e).map Enquiry.asked = snippet := by
  fun_induction enquiries t n a scope snippet e with
  | case1 => rfl
  | case2 =>
    obtain ⟨text, htext⟩ := h _ List.mem_cons_self
    cases htext
  | case3 _ s _ _ _ _ _ ih =>
    exact congrArg (s :: ·) (ih fun q hq => h q (List.mem_cons_of_mem _ hq))

/-- A call that fails is the last, and its failure is the failure of the whole. -/
theorem enquiries_of_error {scope : Bindings} {snippet : Snippet} {e : ε} {k : Nat} {q : Enquiry ε}
    {err : Error} (hq : (enquiries t n a scope snippet e)[k]? = some q)
    (herr : q.answer = .error err) :
    k + 1 = (enquiries t n a scope snippet e).length ∧
      Enquiry.textOf (enquiries t n a scope snippet e) = .error err := by
  fun_induction enquiries t n a scope snippet e generalizing k with
  | case1 => cases hq
  | case2 =>
    cases k with
    | zero =>
      cases hq
      cases herr
      exact ⟨rfl, rfl⟩
    | succ k => cases hq
  | case3 scope s ss e text e' hrun ih =>
    cases k with
    | zero =>
      cases hq
      cases herr
    | succ k =>
      obtain ⟨hlength, htext⟩ := ih hq
      refine ⟨congrArg (· + 1) hlength, ?_⟩
      unfold Enquiry.textOf
      rw [htext]
      rfl

/-- Calls for the same pieces, to an evaluator that answers alike at both applications. -/
theorem forall₂_isLike_enquiries
    (halike : ∀ (e f : SharedEffect) (scope : Bindings) (piece : Piece),
      (Evaluator.ask ⟨t, n, a, e⟩ scope piece : Session ε Text) =
        Evaluator.ask ⟨u, m, b, f⟩ scope piece)
    {k : Nat} {nodes others : Snippet}
    (hpieces : (nodes.take k).map (·.piece) = (others.take k).map (·.piece))
    (scope : Bindings) (e : ε) :
    List.Forall₂ Enquiry.IsLike ((enquiries t n a scope nodes e).take k)
      ((enquiries u m b scope others e).take k) := by
  induction k generalizing nodes others scope e with
  | zero => exact .nil
  | succ k ih =>
    rcases nodes with _ | ⟨s, ss⟩ <;> rcases others with _ | ⟨o, os⟩
    · exact .nil
    · cases hpieces
    · cases hpieces
    · obtain ⟨hpiece, hrest⟩ := List.cons.inj hpieces
      dsimp only at hpiece
      have hrun := congrArg (fun x : Session ε Text => x.run.run e)
        (halike s.effect o.effect scope s.piece)
      unfold enquiries
      rw [← hpiece, ← hrun]
      split
      next err e' _ =>
        simp only [List.take_succ_cons, List.take_nil]
        exact .cons ⟨rfl, rfl, rfl, rfl, rfl⟩ .nil
      next text e' _ =>
        exact .cons ⟨rfl, rfl, rfl, rfl, rfl⟩ (ih hrest _ e')

end Calls

/-! ## Evaluators with a log -/

/-- An evaluator, and the calls for pieces that it got. -/
structure Watched (ε : Type) where
  state : ε
  calls : List (Enquiry ε) := []

namespace Watched

variable {ε : Type}

/-- A call for a piece, which is noted. -/
def noting (site : Site) (scope : Bindings) (piece : Piece) (x : Session ε Text) :
    Session (Watched ε) Text :=
  ExceptT.mk fun w =>
    let (answer, behind) := x.run.run w.state
    let call : Enquiry ε := ⟨site, scope, piece, w.state, answer, behind⟩
    (answer, { state := behind, calls := w.calls ++ [call] })

/-- A computation of the evaluator alone. -/
def unnoted {α : Type} (x : Session ε α) : Session (Watched ε) α :=
  ExceptT.mk fun w =>
    let (answer, behind) := x.run.run w.state
    (answer, { w with state := behind })

instance [Evaluator ε] : Evaluator (Watched ε) where
  name w := Evaluator.name w.state
  friendlyName w := Evaluator.friendlyName w.state
  majorTypes w := Evaluator.majorTypes w.state
  reset w := { w with state := Evaluator.reset w.state }
  beginEvaluation w := { w with state := Evaluator.beginEvaluation w.state }
  testMatch w := Evaluator.testMatch w.state
  applyResult result effect := unnoted (Evaluator.applyResult result effect)
  completions t n := unnoted (Evaluator.completions t n)
  interpretToken token := do
    let w ← get
    let (text, state) := (Evaluator.interpretToken token).run w.state
    set { w with state }
    return text
  evaluateFormula site scope f :=
    noting site scope (.formula f) (Evaluator.evaluateFormula site scope f)
  evaluateText site scope text :=
    noting site scope (.text text) (Evaluator.evaluateText site scope text)

/-- The log of the evaluator. -/
def IsOf (w : Watched ε) (e : ε) : Prop := w.state = e

variable [Evaluator ε]

theorem agreeOnPieces : AgreeOnPieces (@IsOf ε) where
  formula := by
    rintro site scope f w _ rfl
    exact ⟨rfl, rfl⟩
  text := by
    rintro site scope t w _ rfl
    exact ⟨rfl, rfl⟩

theorem run_ask (site : Site) (scope : Bindings) (piece : Piece) (w : Watched ε) :
    (Evaluator.ask site scope piece : Session (Watched ε) Text).run.run w =
      let r := (Evaluator.ask site scope piece : Session ε Text).run.run w.state
      (r.1, { state := r.2, calls := w.calls ++ [⟨site, scope, piece, w.state, r.1, r.2⟩] }) := by
  rcases piece with text | f
  · rfl
  · rfl

/-- The evaluator gets the calls for the nodes of the snippet, and no others. -/
theorem run_render (t : MatchTree) (n : NodeId) (a : Application) (scope : Bindings)
    (snippet : Snippet) (w : Watched ε) :
    (Evaluator.render t n a scope snippet : Session (Watched ε) Text).run.run w =
      let es := enquiries t n a scope snippet w.state
      (Enquiry.textOf es,
        { state := es.foldl (fun _ q => q.behind) w.state, calls := w.calls ++ es }) := by
  induction snippet generalizing scope w with
  | nil =>
    simp only [enquiries, List.append_nil]
    rfl
  | cons s ss ih =>
    rw [Evaluator.run_render_cons, run_ask, enquiries]
    rcases (Evaluator.ask ⟨t, n, a, s.effect⟩ scope s.piece : Session ε Text).run.run w.state
      with ⟨err | text, e'⟩
    · rfl
    · simp only [ih, Enquiry.textOf, List.foldl_cons, List.append_assoc, List.singleton_append]

end Watched

/-! ## The calls of an evaluation -/

namespace Synthesizer

variable {ε : Type}

/-- The session with a log of its evaluator. -/
def watched (s : Synthesizer ε) : Synthesizer (Watched ε) :=
  { evaluator := { state := s.evaluator }, cache := s.cache }

/-- The session has the snippet for the application at the node, from its cache or compiled now. -/
structure HasCode (s : Synthesizer ε) (t : MatchTree) (n : NodeId) (a : Application)
    (nodes : Snippet) : Prop where
  applies : t.Applies n a
  served : outcome (snippet a.effect) s = .ok nodes

theorem evaluator_final_snippet (e : SharedEffect) (s : Synthesizer ε) :
    (final (snippet e) s).evaluator = s.evaluator := by
  unfold final
  rw [run_snippet]
  split
  · rfl
  · rfl
  · rfl

variable [Evaluator ε]

/-- The calls for pieces that the evaluator of a session gets while an application is evaluated. -/
def calls (s : Synthesizer ε) (t : MatchTree) (n : NodeId) (values : List Text) :
    List (Enquiry ε) :=
  (final (Environment.evaluateEffect t n values) s.watched).evaluator.calls

variable {s : Synthesizer ε} {t : MatchTree} {n : NodeId} {a : Application} {nodes : Snippet}

theorem HasCode.run_watched (h : s.HasCode t n a nodes) (values : List Text) :
    let x : Session (Synthesizer (Watched ε)) Text := Environment.evaluateEffect t n values
    let es := enquiries t n a (a.seeds values) nodes s.evaluator
    outcome x s.watched = (Enquiry.textOf es).map Text.trim ∧
      (final x s.watched).evaluator =
        { state := es.foldl (fun _ q => q.behind) s.evaluator, calls := es } := by
  intro x es
  have hserved : outcome (snippet a.effect) s.watched = .ok nodes :=
    (agree_snippet (R := Watched.IsOf) a.effect s.watched s ⟨rfl, rfl⟩).1.trans h.served
  have hrun := run_onEvaluator (Evaluator.render t n a (a.seeds values) nodes)
    (final (snippet a.effect) s.watched)
  rw [evaluator_final_snippet, Watched.run_render] at hrun
  have hx : x = _ := evaluateEffect_eq h.applies values
  rw [hx, outcome_bind_ok _ hserved, final_bind_ok _ hserved, outcome_bind_pure, final_bind_pure]
  exact ⟨congrArg (Except.map Text.trim) (congrArg Prod.fst hrun),
    congrArg Synthesizer.evaluator (congrArg Prod.snd hrun)⟩

theorem HasCode.calls_eq (h : s.HasCode t n a nodes) (values : List Text) :
    s.calls t n values = enquiries t n a (a.seeds values) nodes s.evaluator :=
  congrArg Watched.calls (h.run_watched values).2

/-- The evaluation answers what the calls give together, and leaves the evaluator as they do. -/
theorem HasCode.run (h : s.HasCode t n a nodes) (values : List Text) :
    let x : Session (Synthesizer ε) Text := Environment.evaluateEffect t n values
    let es := s.calls t n values
    outcome x s = (Enquiry.textOf es).map Text.trim ∧
      (final x s).evaluator = es.foldl (fun _ q => q.behind) s.evaluator := by
  intro x es
  obtain ⟨hout, -, hstate⟩ := Watched.agreeOnPieces.agreeOn t n values s.watched s ⟨rfl, rfl⟩
  obtain ⟨hout', hstate'⟩ := h.run_watched values
  unfold es
  rw [h.calls_eq]
  exact ⟨hout.symm.trans hout', hstate.symm.trans (congrArg Watched.state hstate')⟩

end Synthesizer

/-- For the nodes of a snippet there are these calls, one each, in the order of the code: each sees
the parameters and what the calls before it captured, and it begins where the call before it left
the evaluator. The first call that fails is the last, and its failure is the outcome; otherwise the
outcome is what the calls answered, trimmed. -/
structure FollowsCode {ε : Type} [Evaluator ε] (t : MatchTree) (n : NodeId) (a : Application)
    (values : List Text) (nodes : Snippet) (e : ε) (es : List (Enquiry ε))
    (outcome : Except Error Text) (e' : ε) : Prop where
  order : es.map Enquiry.asked <+: nodes
  sites : ∀ q ∈ es, q.site.tree = t ∧ q.site.node = n ∧ q.site.application = a
  scopes : ∀ (k : Nat) (q : Enquiry ε), es[k]? = some q → q.scope = Bindings.ofList
    (a.effect.effect.parameterNames.zip values ++ (es.take k).flatMap Enquiry.captured)
  answers : ∀ q ∈ es,
    (Evaluator.ask q.site q.scope q.piece).run.run q.before = (q.answer, q.behind)
  states : es.map (·.before) ++ [e'] = e :: es.map (·.behind)
  succeeds : ∀ texts : List Text, es.map (·.answer) = texts.map .ok →
    es.map Enquiry.asked = nodes ∧ outcome = .ok (Text.trim texts.flatten)
  fails : ∀ (k : Nat) (q : Enquiry ε) (err : Error), es[k]? = some q → q.answer = .error err →
    k + 1 = es.length ∧ outcome = .error err

theorem Synthesizer.HasCode.followsCode {ε : Type} [Evaluator ε] {s : Synthesizer ε} {t : MatchTree}
    {n : NodeId} {a : Application} {nodes : Snippet} (h : s.HasCode t n a nodes)
    (values : List Text) :
    let x : Session (Synthesizer ε) Text := Environment.evaluateEffect t n values
    FollowsCode t n a values nodes s.evaluator (s.calls t n values) (outcome x s)
      (final x s).evaluator := by
  intro x
  obtain ⟨hout, hstate⟩ := h.run values
  rw [hout, hstate, h.calls_eq]
  exact {
    order := asked_enquiries
    sites := site_of_mem_enquiries
    scopes := fun _ _ hq => scope_of_getElem?_enquiries rfl hq
    answers := run_of_mem_enquiries
    states := states_enquiries
    succeeds := fun texts htexts => by
      refine ⟨asked_enquiries_of_ok fun q hq => ?_, ?_⟩
      · have hmem := htexts ▸ List.mem_map_of_mem hq
        obtain ⟨text, -, htext⟩ := List.mem_map.mp hmem
        exact ⟨text, htext.symm⟩
      · rw [Enquiry.textOf_eq_ok htexts]
        rfl
    fails := fun k q err hq herr => by
      obtain ⟨hlast, htext⟩ := enquiries_of_error hq herr
      rw [htext]
      exact ⟨hlast, rfl⟩ }

/-! ## The law -/

/-- For every evaluator. Variables stand in the order in which their names are bound first, with the
text that is bound to the name last. An evaluation calls the evaluator for the nodes of a snippet
one after another, and a call sees the parameters and what was captured before it, so at two
applications with the same parameter names the calls for equal first pieces are alike, whatever
stands behind them, if the evaluator answers alike for the code of both. -/
theorem pieces_see_what_stands_before_them (ε : Type) [Evaluator ε] :
    (∀ pairs : List (Text × Text),
      (Bindings.ofList pairs).names = (pairs.map Prod.fst).eraseDups ∧
      ∀ x, (Bindings.ofList pairs).value? x = Bindings.value? pairs.reverse x) ∧
    (∀ (s : Synthesizer ε) (t : MatchTree) (n : NodeId) (a : Application) (nodes : Snippet)
      (values : List Text), s.HasCode t n a nodes →
      let x : Session (Synthesizer ε) Text := Environment.evaluateEffect t n values
      FollowsCode t n a values nodes s.evaluator (s.calls t n values) (outcome x s)
        (final x s).evaluator) ∧
    ∀ (s r : Synthesizer ε) (t u : MatchTree) (n m : NodeId) (a b : Application)
      (nodes others : Snippet) (values : List Text) (k : Nat),
      s.HasCode t n a nodes → r.HasCode u m b others → s.evaluator = r.evaluator →
      a.effect.effect.parameterNames = b.effect.effect.parameterNames →
      (nodes.take k).map (·.piece) = (others.take k).map (·.piece) →
      (∀ (e f : SharedEffect) (scope : Bindings) (piece : Piece),
        (Evaluator.ask ⟨t, n, a, e⟩ scope piece : Session ε Text) =
          Evaluator.ask ⟨u, m, b, f⟩ scope piece) →
      List.Forall₂ Enquiry.IsLike ((s.calls t n values).take k) ((r.calls u m values).take k) := by
  refine ⟨fun pairs => ⟨Bindings.names_ofList pairs, Bindings.value?_ofList pairs⟩,
    fun s t n a nodes values h => h.followsCode values, ?_⟩
  intro s r t u n m a b nodes others values k hs hr hstate hnames hpieces halike
  have hseeds : a.seeds values = b.seeds values := by
    unfold Application.seeds
    rw [hnames]
  rw [hs.calls_eq, hr.calls_eq, hstate, hseeds]
  exact forall₂_isLike_enquiries halike hpieces (b.seeds values) r.evaluator

/-- An effect with two parameters of one name. -/
def shadowingEffect (code : Text) : SharedEffect :=
  ⟨0, { id := ['s'], parameters := [{ name := ['x'] }, { name := ['y'] }, { name := ['x'] }]
        code }⟩

def shadowing (code : Text) : MatchTree :=
  MatchTree.build [.addEffectWithParameters (shadowingEffect code) []]

theorem applies_shadowing (code : Text) :
    (shadowing code).Applies 3 ⟨shadowingEffect code, [], [0, 1, 2], 4⟩ :=
  MatchTree.application?_eq_some.mp rfl

/-- Code that captures the name of its parameters anew. -/
def shadowingCode : Text := "$\x7bx\x7d$\x7bx:f\x7d$\x7bx\x7d".toList

def shadowingPieces : List Piece :=
  [.formula ⟨['x'], [], none⟩, .formula ⟨['f'], [], some ['x']⟩, .formula ⟨['x'], [], none⟩]

/-- Of the place of a piece, a scripted evaluator looks at the node alone. -/
theorem Scripted.ask_congr (t u : MatchTree) (n : NodeId) (a b : Application) (e f : SharedEffect)
    (scope : Bindings) (piece : Piece) :
    (Evaluator.ask ⟨t, n, a, e⟩ scope piece : Session Scripted Text) =
      Evaluator.ask ⟨u, n, b, f⟩ scope piece := by
  rcases piece with text | formula
  · rfl
  · rfl

/-- The name keeps its place in front of `y`: at first with the last of its values, and behind the
capture with the captured text. Code that fails later on sees the same up to there. -/
theorem captured_name_is_seen_behind_its_capture :
    let s : Synthesizer Scripted :=
      { evaluator := { values := [(['f'], ['F'])], failing := [['g']] } }
    let longer := shadowingCode ++ "$\x7bg\x7d!".toList
    let t := shadowing shadowingCode
    let u := shadowing longer
    let a : Application := ⟨shadowingEffect shadowingCode, [], [0, 1, 2], 4⟩
    let b : Application := ⟨shadowingEffect longer, [], [0, 1, 2], 4⟩
    let nodes : Snippet := shadowingPieces.map (SnippetNode.mk a.effect)
    let pieces := shadowingPieces ++ [.formula ⟨['g'], [], none⟩, .text ['!']]
    let others : Snippet := pieces.map (SnippetNode.mk b.effect)
    let values := [['A'], ['B'], ['C'], ['D']]
    let x : Session (Synthesizer Scripted) Text := Environment.evaluateEffect t 3 values
    let y : Session (Synthesizer Scripted) Text := Environment.evaluateEffect u 3 values
    s.HasCode t 3 a nodes ∧ s.HasCode u 3 b others ∧
      FollowsCode t 3 a values nodes s.evaluator (s.calls t 3 values) (outcome x s)
        (final x s).evaluator ∧
      List.Forall₂ Enquiry.IsLike ((s.calls t 3 values).take 3) ((s.calls u 3 values).take 3) ∧
      (s.calls t 3 values).map (·.scope) =
        [[(['x'], ['C']), (['y'], ['B'])], [(['x'], ['C']), (['y'], ['B'])],
          [(['x'], ['F']), (['y'], ['B'])]] ∧
      outcome x s = .ok "CFF".toList ∧
      (s.calls u 3 values).length = 4 ∧
      outcome y s = .error (.applyFailed (.refused "formula g".toList)) := by
  intro s longer t u a b nodes pieces others values x y
  have ht : s.HasCode t 3 a nodes := ⟨applies_shadowing _, by decide +kernel⟩
  have hu : s.HasCode u 3 b others := ⟨applies_shadowing _, by decide +kernel⟩
  obtain ⟨-, hfollows, hlike⟩ := pieces_see_what_stands_before_them Scripted
  refine ⟨ht, hu, hfollows s t 3 a nodes values ht, ?_, by decide +kernel, by decide +kernel,
    by decide +kernel, by decide +kernel⟩
  exact hlike s s t u 3 3 a b nodes others values 3 ht hu rfl rfl rfl (Scripted.ask_congr t u 3 a b)

end SnippetEngine
