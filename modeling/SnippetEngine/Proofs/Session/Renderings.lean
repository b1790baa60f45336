-- What an evaluation renders. Each application of the match is rendered once, in post-order, with a
-- text for each piece of its code. Where every helper is closed again, the value is what stands
-- outside of the helpers, and the helpers of the walk are the sections of the code, one application
-- after another.
import SnippetEngine.Proofs.Document.Splits
import SnippetEngine.Proofs.Match.Order
import SnippetEngine.Proofs.Session.Parameters

namespace SnippetEngine

open Session Text

/-! ## Renderings -/

/-- The evaluation of an application: what each piece of its code stands for, and the value. -/
structure Rendering where
  node : NodeId
  application : Application
  pieces : List Piece
  texts : List Text
  answer : Except Error Text

namespace Rendering

/-- What an evaluation renders for a node that is an application whose code compiles. -/
def of? (t : MatchTree) (n : NodeId) (values : List Text) (s : Synthesizer Document)
    (answer : Except Error Text) : Option Rendering :=
  match t.application? n with
  | .ok (some a) =>
    match s.served a.effect with
    | .ok snippet => some
      { node := n
        application := a
        pieces := snippet.map (·.piece)
        texts := ((Document.contributions t n a (a.seeds values) snippet).run s.evaluator).1.map
          (·.text)
        answer }
    | .error _ => none
  | _ => none

/-- The texts with the roles of their pieces. -/
def stretch (r : Rendering) : Stretch :=
  (Role.ofPieces r.application.effect.effect.parameterNames r.pieces).zip r.texts

/-- A helper of the effect for each section. -/
def helpers (r : Rendering) : List Helper :=
  r.stretch.sections.map (Helper.mk r.application.effect.effect.id)

theorem length_helpers (r : Rendering) : r.helpers.length = r.stretch.countP (·.1 = .opens) := by
  rw [helpers, List.length_map, Stretch.length_sections]

/-- The code is that of the application, each piece has a text, and the value is what stands outside
of the helpers, trimmed. -/
structure IsSplit (t : MatchTree) (r : Rendering) : Prop where
  applies : t.Applies r.node r.application
  compiled : Snippet.piecesOf r.application.effect.effect.id r.application.effect.effect.code =
    .ok r.pieces
  each : r.texts.length = r.pieces.length
  value : r.answer = .ok (trim (r.stretch.outside false))

end Rendering

/-! ## A walk with its renderings -/

/-- A session, and what was rendered in it. -/
structure Minuted where
  session : Synthesizer Document
  renderings : List Rendering := []

namespace Minuted

/-- A step of the session alone. -/
def onSession {α : Type} (x : Session (Synthesizer Document) α) : Session Minuted α :=
  ExceptT.mk fun u =>
    let (answer, session) := x.run.run u.session
    (answer, { u with session })

instance : Environment Minuted where
  name u := Environment.name u.session
  reset u := { u with session := Environment.reset u.session }
  beginEvaluation u := { u with session := Environment.beginEvaluation u.session }
  testMatch u := Environment.testMatch u.session
  evaluateEffect t n values := ExceptT.mk fun u =>
    let evaluated : Session (Synthesizer Document) Text := Environment.evaluateEffect t n values
    let (answer, session) := evaluated.run.run u.session
    let rendering := Rendering.of? t n values u.session answer
    (answer, { session, renderings := u.renderings ++ rendering.toList })
  applyResult result effect := onSession (Environment.applyResult result effect)
  completions t n := onSession (Environment.completions t n)
  interpretToken token := do
    let u ← get
    let (text, session) := (Environment.interpretToken token).run u.session
    set { u with session }
    return text

/-- The session with its renderings. -/
def IsOf (u : Minuted) (s : Synthesizer Document) : Prop := u.session = s

/-- Noting what is rendered does not change the evaluation. -/
theorem agree_evaluate (t : MatchTree) (n : NodeId) (overview : Bool) :
    Agree IsOf IsOf (Environment.evaluate t n overview : Session Minuted Text)
      (Environment.evaluate t n overview : Session (Synthesizer Document) Text) := by
  apply Session.agree_evaluate
  · rintro u _ rfl
    rfl
  · rintro n values u _ rfl
    exact ⟨rfl, rfl⟩

/-- No helper is open, and the cache holds code of the match. -/
structure IsReady (t : MatchTree) (u : Minuted) : Prop where
  isClosed : u.session.evaluator.gathered.inHelper = false
  caches : u.session.Caches t.Mentions

/-- What was rendered since then, and the helpers of it. -/
structure Advances (t : MatchTree) (u : Minuted) (rs : List Rendering) (u' : Minuted) : Prop where
  ready : u'.IsReady t
  renderings : u'.renderings = u.renderings ++ rs
  split : ∀ r ∈ rs, r.IsSplit t
  helpers : u'.session.evaluator.gathered.helpers =
    u.session.evaluator.gathered.helpers ++ rs.flatMap (·.helpers)

variable {t : MatchTree} {u v w : Minuted} {rs ls : List Rendering}

theorem Advances.refl (h : u.IsReady t) : Advances t u [] u where
  ready := h
  renderings := (List.append_nil _).symm
  split := fun _ hr => nomatch hr
  helpers := (List.append_nil _).symm

theorem Advances.trans (h : Advances t u rs v) (h' : Advances t v ls w) :
    Advances t u (rs ++ ls) w where
  ready := h'.ready
  renderings := by rw [h'.renderings, h.renderings, List.append_assoc]
  split := List.forall_mem_append.mpr ⟨h.split, h'.split⟩
  helpers := by rw [h'.helpers, h.helpers, List.flatMap_append, List.append_assoc]

/-! ## Sessions that render -/

variable {α β : Type} {order rest : List NodeId}

/-- From every session that is ready, the step succeeds and renders the applications at the nodes. -/
def Renders (t : MatchTree) (order : List NodeId) (x : Session Minuted α) (gives : α → Prop) :
    Prop :=
  ∀ u : Minuted, u.IsReady t → ∃ a rs, outcome x u = .ok a ∧ gives a ∧
    rs.map (·.node) = order ∧ Advances t u rs (final x u)

theorem renders_pure {a : α} {gives : α → Prop} (h : gives a) :
    Renders t [] (pure a : Session Minuted α) gives :=
  fun _ hu => ⟨a, [], rfl, h, rfl, .refl hu⟩

theorem renders_bind {x : Session Minuted α} {f : α → Session Minuted β} {gives : α → Prop}
    {gives' : β → Prop} (hx : Renders t order x gives)
    (hf : ∀ a, gives a → Renders t rest (f a) gives') :
    Renders t (order ++ rest) (x >>= f) gives' := by
  intro u hu
  obtain ⟨a, rs, hout, ha, hnodes, hadvances⟩ := hx u hu
  obtain ⟨b, ls, hout', hb, hnodes', hadvances'⟩ := hf a ha _ hadvances.ready
  refine ⟨b, rs ++ ls, ?_, hb, ?_, ?_⟩
  · rw [outcome_bind_ok f hout, hout']
  · rw [List.map_append, hnodes, hnodes']
  · rw [final_bind_ok f hout]
    exact hadvances.trans hadvances'

end Minuted

/-! ## Applications -/

/-- The code compiles, and behind each formula that opens a helper there is one that closes it. -/
def SharedEffect.ClosesHelpers (e : SharedEffect) : Prop :=
  ∃ pieces, Snippet.piecesOf e.effect.id e.effect.code = .ok pieces ∧
    Role.ClosesAll (Role.ofPieces e.effect.parameterNames pieces)

theorem SharedEffect.closesHelpers_iff {e : SharedEffect} : e.ClosesHelpers ↔
    ((Snippet.piecesOf e.effect.id e.effect.code).toOption.map fun ps =>
      Role.leaveOpen false (Role.ofPieces e.effect.parameterNames ps)) = some false := by
  unfold ClosesHelpers
  rcases Snippet.piecesOf e.effect.id e.effect.code with err | ps
  · simp [Except.toOption]
  · simp [Except.toOption, Role.closesAll_iff]

theorem Application.binds_seeds {a : Application} {values : List Text}
    (h : values.length = a.effect.effect.parameters.length) :
    Document.Binds (a.seeds values) a.effect.effect.parameterNames := by
  intro x
  constructor
  · intro hx
    obtain ⟨j, hj⟩ := Effect.exists_isLastNamed hx
    rw [value?_seeds_of_isLastNamed hj h]
    obtain ⟨before, behind, hnames, -, rfl⟩ := hj
    simpa [h] using Effect.lt_length_of_parameterNames hnames
  · intro hsome
    by_contra hx
    rw [value?_seeds_eq_none hx] at hsome
    cases hsome

/-- What looks like the compiled code has its pieces, all of them of that effect. -/
theorem Snippet.outline_eq_map {snippet : Snippet} {id : Text} {pieces : List Piece}
    (h : snippet.outline = pieces.map (Prod.mk id)) :
    snippet.map (·.piece) = pieces ∧ ∀ s ∈ snippet, s.effect.effect.id = id := by
  constructor
  · have hpieces := congrArg (List.map Prod.snd) h
    simpa [outline, Function.comp_def] using hpieces
  · intro s hs
    have hmem : (s.effect.effect.id, s.piece) ∈ snippet.outline := List.mem_map_of_mem hs
    rw [h] at hmem
    obtain ⟨_, -, heq⟩ := List.mem_map.mp hmem
    exact (congrArg Prod.fst heq).symm

namespace Minuted

variable {t : MatchTree}

theorem run_evaluateEffect {n : NodeId} {values : List Text} {u : Minuted} {r : Rendering}
    {answer : Except Error Text} {session : Synthesizer Document}
    (hrun : (Environment.evaluateEffect t n values : Session (Synthesizer Document) Text).run.run
      u.session = (answer, session))
    (hnoted : Rendering.of? t n values u.session answer = some r) :
    (Environment.evaluateEffect t n values : Session Minuted Text).run.run u =
      (answer, { session, renderings := u.renderings ++ [r] }) := by
  change (let (answer, session) := (Environment.evaluateEffect t n values :
      Session (Synthesizer Document) Text).run.run u.session
    (answer, ({ session, renderings := u.renderings ++
      (Rendering.of? t n values u.session answer).toList } : Minuted))) = _
  rw [hrun]
  dsimp only
  rw [hnoted]
  rfl

/-- An application whose helpers are closed is split by them. -/
theorem renders_evaluateEffect (hE : Coherent t.Mentions) {n : NodeId} {a : Application}
    (happlies : t.Applies n a) (hcloses : a.effect.ClosesHelpers) {values : List Text}
    (hlength : values.length = a.effect.effect.parameters.length) :
    Renders t [n] (Environment.evaluateEffect t n values : Session Minuted Text)
      fun _ => True := by
  intro u ⟨hclosed, hcaches⟩
  obtain ⟨pieces, hpieces, hall⟩ := hcloses
  have hmentions : t.Mentions a.effect := ⟨n, a, happlies, rfl⟩
  have hlook := Synthesizer.outline_served hE hcaches hmentions
  rw [Snippet.outline_compile, hpieces] at hlook
  rcases hserved : u.session.served a.effect with err | snippet
  · rw [hserved] at hlook
    cases hlook
  rw [hserved] at hlook
  obtain ⟨hsame, hid⟩ := Snippet.outline_eq_map (Except.ok.inj hlook)
  obtain ⟨cache, hrun⟩ := Synthesizer.run_evaluateEffect happlies hserved values
  obtain ⟨hcaches', -⟩ := (Synthesizer.agree_evaluateEffect hE (fun _ he => he) n values u.session _
    ⟨hcaches, rfl⟩).2
  unfold final at hcaches'
  rw [hrun] at hcaches'
  obtain ⟨hlong, hout, hopen, hhelpers⟩ := Document.contributions_split
    (Application.binds_seeds hlength) t n a hid u.session.evaluator
  rw [hsame, hclosed] at hopen hhelpers hout
  rw [if_neg Bool.false_ne_true] at hhelpers
  let cs := (Document.contributions t n a (a.seeds values) snippet).run u.session.evaluator
  let answer : Except Error Text := .ok (trim (Contribution.textFor none cs.1))
  let r : Rendering := ⟨n, a, pieces, cs.1.map (·.text), answer⟩
  have hnoted : Rendering.of? t n values u.session answer = some r := by
    unfold Rendering.of?
    rw [MatchTree.application?_eq_some.mpr happlies]
    simp only [hserved, hsame]
    rfl
  have hnote := run_evaluateEffect hrun hnoted
  refine ⟨_, [r], congrArg Prod.fst hnote, trivial, rfl, ?_⟩
  unfold final
  rw [hnote]
  have hsplit : r.IsSplit t := by
    refine ⟨happlies, hpieces, ?_, congrArg (fun text => Except.ok (trim text)) hout⟩
    have hpiece := congrArg List.length hsame
    rw [List.length_map] at hpiece
    rw [List.length_map, hlong, hpiece]
  refine ⟨⟨hopen.trans (Role.closesAll_iff.mp hall), hcaches'⟩, rfl,
    List.forall_mem_singleton.mpr hsplit, ?_⟩
  rw [List.flatMap_singleton]
  exact hhelpers

/-! ## Matches -/

variable {overview : Bool}

/-- The evaluation of the match renders its applications, if they close their helpers. -/
def RendersShape (t : MatchTree) (overview : Bool) (s : Shape) : Prop :=
  (∀ m ∈ s.postorder, ∀ a, t.Applies m a → a.effect.ClosesHelpers) →
    Renders t s.postorder (Environment.evaluateShape t overview s) fun _ => True

theorem renders_evaluateShapes {ss : List Shape} (h : ∀ s ∈ ss, RendersShape t overview s)
    (hcloses : ∀ m ∈ Shape.postorderOfAll ss, ∀ a, t.Applies m a → a.effect.ClosesHelpers) :
    Renders t (Shape.postorderOfAll ss) (Environment.evaluateShapes t overview ss)
      fun values => values.length = ss.length := by
  induction ss with
  | nil =>
    unfold Environment.evaluateShapes
    exact renders_pure rfl
  | cons s ss ih =>
    unfold Shape.postorderOfAll at hcloses ⊢
    obtain ⟨hfirst, hrest⟩ := List.forall_mem_append.mp hcloses
    unfold Environment.evaluateShapes
    refine renders_bind (h s List.mem_cons_self hfirst) fun value _ => ?_
    rw [← List.append_nil (Shape.postorderOfAll ss)]
    refine renders_bind (ih (fun s hs => h s (List.mem_cons_of_mem _ hs)) hrest)
      fun values hvalues => renders_pure ?_
    rw [List.length_cons, List.length_cons, hvalues]

theorem exists_rendersShape (hE : Coherent t.Mentions) (ht : t.WellFormed) {n : NodeId}
    (hn : n < t.size) (overview : Bool) :
    ∃ s, t.shape? n = some s ∧ RendersShape t overview s := by
  refine ht.exists_shape (motive := fun _ s => RendersShape t overview s) (fun n a _ _ => ?_)
    (fun n a ss happlies hchildren hcloses => ?_) hn
  · unfold Environment.evaluateShape
    exact renders_pure trivial
  · unfold Shape.postorder at hcloses ⊢
    obtain ⟨hbelow, hself⟩ := List.forall_mem_append.mp hcloses
    unfold Environment.evaluateShape
    refine renders_bind (renders_evaluateShapes (fun s hs => ?_) hbelow) fun values hvalues => ?_
    · obtain ⟨i, hi, rfl⟩ := List.getElem_of_mem hs
      exact (hchildren.get (hchildren.length_eq ▸ hi) hi).2
    · refine renders_evaluateEffect hE happlies (hself n (List.mem_singleton_self n) a happlies) ?_
      rw [hvalues, ← hchildren.length_eq, ht.arity n a happlies]

end Minuted

/-- In every walk a piece puts what it stands for in one place, the helper opened last or the
output. So if the code of each application closes its helpers, the applications are rendered once
each, in post-order; the value of one is what stands outside of its helpers, trimmed, and the helpers
of the walk are the sections one after another, without loss and without repetition. -/
theorem helpers_hold_the_texts_of_their_sections :
    (Gathered.IsTidy {} ∧ ∀ (site : Site) (scope : Bindings) (piece : Piece) (d : Document),
      d.gathered.IsTidy → let r := (Document.represented site scope piece).run d
        ∃ output behind, (Evaluator.evaluatePiece site scope piece :
            Session Document (Text × Bindings)).run.run d =
              (.ok (output, scope.keep piece.capture? output), behind) ∧
          Document.Lands r.1 r.2 output behind ∧ behind.gathered.IsTidy) ∧
    ∀ (steps : List MatchTree.Step) (n : NodeId) (overview : Bool) (d : Document),
      let t := MatchTree.build steps
      let s : Synthesizer Document := { evaluator := d }
      let x : Session Minuted Text := Environment.evaluate t n overview
      let y : Session (Synthesizer Document) Text := Environment.evaluate t n overview
      let behind := final x { session := s }
      outcome x { session := s } = outcome y s ∧ behind.session = final y s ∧
      (n < t.size → Coherent t.Mentions →
        (∀ m, t.IsBelow m n → ∀ a, t.Applies m a → a.effect.ClosesHelpers) →
        (∃ value, outcome y s = .ok value) ∧
        behind.renderings.map (·.node) = t.postorder n ∧
        (∀ r ∈ behind.renderings, r.IsSplit t ∧
          r.helpers.length = r.stretch.countP (·.1 = .opens) ∧
          (r.stretch.outside false ++ r.stretch.sections.flatten).Perm
            (r.stretch.flatMap Prod.snd)) ∧
        (final y s).evaluator.gathered.helpers = behind.renderings.flatMap (·.helpers) ∧
        (final y s).evaluator.gathered.inHelper = false) := by
  refine ⟨⟨Gathered.isTidy_nil, fun site scope piece d => Document.exists_lands site scope piece⟩,
    fun steps n overview d => ?_⟩
  intro t s x y behind
  have ht : t.WellFormed := MatchTree.wellFormed_build steps
  obtain ⟨hout, hsession⟩ := Minuted.agree_evaluate t n overview { session := s } s rfl
  refine ⟨hout, hsession, fun hn hE hcloses => ?_⟩
  obtain ⟨shape, hshape, hrenders⟩ := Minuted.exists_rendersShape hE ht hn overview
  have hrun := run_evaluate hshape overview ({ session := s } : Minuted)
  have hready : Minuted.IsReady t (Environment.beginEvaluation { session := s }) :=
    ⟨rfl, fun _ hentry => nomatch hentry⟩
  have hbelow : ∀ m ∈ shape.postorder, ∀ a, t.Applies m a → a.effect.ClosesHelpers := by
    intro m hm
    rw [← MatchTree.postorder_of_shape? hshape, ht.mem_postorder] at hm
    exact hcloses m hm.2
  obtain ⟨value, rs, hvalue, -, hnodes, hadvances⟩ := hrenders hbelow _ hready
  have hbehind : behind = final (Environment.evaluateShape t overview shape)
      (Environment.beginEvaluation { session := s }) := congrArg Prod.snd hrun
  rw [← hbehind] at hadvances
  have hrenderings : behind.renderings = rs := hadvances.renderings
  rw [← hsession, ← hout, hrenderings, MatchTree.postorder_of_shape? hshape]
  refine ⟨⟨value, (congrArg Prod.fst hrun).trans hvalue⟩, hnodes, fun r hr => ?_, ?_, ?_⟩
  · exact ⟨hadvances.split r hr, r.length_helpers, r.stretch.perm_split false⟩
  · exact hadvances.helpers
  · exact hadvances.ready.isClosed

/-- Code that opens a second helper while the first is open. -/
def reopeningCode : Text := "$\x7bhelper\x7dA $\x7bhelper\x7dB$\x7bendHelper\x7d b".toList

/-- Code that has its argument in a helper and outside. -/
def enclosingCode : Text := "a $\x7bhelper\x7dC$\x7bx\x7d$\x7bendHelper\x7d$\x7bx\x7d".toList

def helperSteps : List MatchTree.Step :=
  [.addEffect ⟨0, { id := ['i'], code := reopeningCode }⟩ [] [],
    .addEffect ⟨1, { id := ['o'], parameters := [{ name := ['x'] }], code := enclosingCode }⟩ [] [0]]

theorem sections_of_nested_helpers :
    let t := MatchTree.build helperSteps
    let s : Synthesizer Document := { evaluator := .ofText [] {} }
    let y : Session (Synthesizer Document) Text := Environment.evaluate t 2 false
    let behind := final (Environment.evaluate t 2 false) ({ session := s } : Minuted)
    2 < t.size ∧ Coherent t.Mentions ∧
      (∀ m, t.IsBelow m 2 → ∀ a, t.Applies m a → a.effect.ClosesHelpers) ∧
      outcome y s = .ok "a b".toList ∧
      (final y s).evaluator.gathered.helpers =
        [⟨['i'], "A ".toList⟩, ⟨['i'], "B".toList⟩, ⟨['o'], "Cb".toList⟩] ∧
      behind.renderings.map (·.node) = [0, 2] ∧ ∀ r ∈ behind.renderings, r.IsSplit t := by
  intro t s y behind
  have hsize : 2 < t.size := by decide +kernel
  have hE : Coherent t.Mentions := MatchTree.coherent_of_effects (by decide +kernel)
  have horder : t.postorder 2 = [0, 2] := by decide +kernel
  have hcloses : ∀ m, t.IsBelow m 2 → ∀ a, t.Applies m a → a.effect.ClosesHelpers := by
    intro m hbelow a happlies
    have hm : m ∈ t.postorder 2 :=
      (MatchTree.wellFormed_build helperSteps).mem_postorder.mpr ⟨⟨a, happlies⟩, hbelow⟩
    have happlication := MatchTree.application?_eq_some.mpr happlies
    rw [horder] at hm
    rcases List.mem_pair.mp hm with rfl | rfl
    all_goals
      cases happlication
      exact SharedEffect.closesHelpers_iff.mpr (by decide +kernel)
  obtain ⟨-, hwalk⟩ := helpers_hold_the_texts_of_their_sections
  obtain ⟨-, -, hsplits⟩ := hwalk helperSteps 2 false (.ofText [] {})
  obtain ⟨-, hnodes, hsplit, -, -⟩ := hsplits hsize hE hcloses
  exact ⟨hsize, hE, hcloses, by decide +kernel, by decide +kernel, hnodes.trans horder,
    fun r hr => (hsplit r hr).1⟩

end SnippetEngine
