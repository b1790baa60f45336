-- The names that a walk hands out. A free name is reserved, and no later formula of the walk gets
-- it again. A loop variable is not reserved unless there is no letter left for it, so it is given
-- once more as soon as no variable in scope has it: to another loop, or to a formula that wants it.
import SnippetEngine.Proofs.Document.References
import SnippetEngine.Proofs.Session.Invariants

namespace SnippetEngine

open Session Text

/-! ## Handouts -/

/-- A name that a formula has got. -/
structure Handout where
  /-- The node of the application that is evaluated. -/
  node : NodeId
  request : NameRequest
  /-- The variables in front of the formula. -/
  scope : Bindings
  name : Text
  deriving DecidableEq

namespace Handout

def isReserved (h : Handout) : Bool := h.request.reserves h.name

/-- The names that are reserved by handouts. -/
def reserved (hs : List Handout) : List Text := (hs.filter (·.isReserved)).map (·.name)

theorem reserved_append (hs ls : List Handout) :
    reserved (hs ++ ls) = reserved hs ++ reserved ls := by
  simp [reserved]

/-- Each name is chosen with the declared names, the variables in scope and the names reserved
before it in use. -/
inductive AreChosen (declared : List Text) : List Handout → Prop
  | nil : AreChosen declared []
  | snoc {hs : List Handout} {h : Handout} (before : AreChosen declared hs)
    (chosen : h.name = h.request.choose (declared ++ h.scope.values ++ reserved hs)) :
    AreChosen declared (hs ++ [h])

variable {declared : List Text} {hs pre mid post : List Handout} {a b : Handout}

theorem AreChosen.chosen (h : AreChosen declared hs) (hsplit : hs = pre ++ a :: post) :
    a.name = a.request.choose (declared ++ a.scope.values ++ reserved pre) := by
  induction h generalizing post with
  | nil => simp at hsplit
  | @snoc hs h _ hchosen ih =>
    rcases List.eq_nil_or_concat post with rfl | ⟨post, l, rfl⟩
    · obtain ⟨rfl, hlast⟩ := List.append_inj' hsplit rfl
      obtain rfl := List.singleton_inj.mp hlast
      exact hchosen
    · rw [List.concat_eq_append, ← List.cons_append, ← List.append_assoc] at hsplit
      exact ih (List.append_inj' hsplit rfl).1

theorem AreChosen.chosen_behind (h : AreChosen declared (pre ++ a :: (mid ++ b :: post))) :
    b.name = b.request.choose (declared ++ b.scope.values ++ reserved (pre ++ a :: mid)) := by
  have hsplit : pre ++ a :: (mid ++ b :: post) = pre ++ a :: mid ++ b :: post := by simp
  exact h.chosen hsplit

/-- A reserved name is not handed out again. -/
theorem AreChosen.ne_of_reserved (h : AreChosen declared (pre ++ a :: (mid ++ b :: post)))
    (ha : a.isReserved = true) : b.name ≠ a.name := by
  intro hname
  have hfree := NameRequest.choose_not_mem
    (declared ++ b.scope.values ++ reserved (pre ++ a :: mid)) b.request
  rw [← h.chosen_behind, hname] at hfree
  apply hfree
  simp [reserved, ha]

/-- A name that is not reserved is one of the letters. -/
theorem mem_loopNames_of_not_reserved (ha : a.isReserved = false) :
    a.name ∈ Document.loopNames := by
  rcases a with ⟨node, _ | desired, scope, name⟩
  · simpa [isReserved, NameRequest.reserves] using ha
  · cases ha

/-- A letter is handed out again if no variable in scope has it, no handout between reserves it, and
the formula wants that name or is a loop that finds the letters before in use. -/
theorem AreChosen.eq_iff (h : AreChosen declared (pre ++ a :: (mid ++ b :: post)))
    (ha : a.isReserved = false) : b.name = a.name ↔
      (a.name ∉ b.scope.values ∧ a.name ∉ reserved mid) ∧
        b.request.Wants (declared ++ b.scope.values ++ reserved (pre ++ mid)) a.name := by
  have hreserved : reserved (pre ++ a :: mid) = reserved (pre ++ mid) := by
    simp [reserved, ha]
  have hfree := NameRequest.choose_not_mem (declared ++ a.scope.values ++ reserved pre) a.request
  rw [← h.chosen rfl] at hfree
  have hinUse : a.name ∉ declared ++ b.scope.values ++ reserved (pre ++ mid) ↔
      a.name ∉ b.scope.values ∧ a.name ∉ reserved mid := by
    simp only [List.mem_append, not_or, reserved_append] at hfree ⊢
    simp [hfree]
  rw [h.chosen_behind, hreserved,
    NameRequest.choose_eq_iff (mem_loopNames_of_not_reserved ha), hinUse]

end Handout

namespace Document

theorem receive_names (text : Text) (d : Document) :
    (d.receive text).declared = d.declared ∧
      (d.receive text).gathered.reserved = d.gathered.reserved := by
  unfold receive
  split
  · exact ⟨rfl, rfl⟩
  · exact ⟨rfl, rfl⟩

end Document

/-! ## A walk with a journal -/

/-- A document, and the names that were handed out in it since the evaluation began. -/
structure Journal where
  document : Document
  handouts : List Handout := []

namespace Journal

/-- A step of the document alone. -/
def onDocument {α : Type} (x : Session Document α) : Session Journal α :=
  ExceptT.mk fun j =>
    let (result, document) := x.run.run j.document
    (result, { j with document })

/-- Notes the name that a formula gets, if it asks for one. -/
def note (site : Site) (scope : Bindings) (f : Formula) (j : Journal) : Journal :=
  { j with handouts := j.handouts ++ (f.request? scope).toList.map fun q =>
      ⟨site.node, q, scope, ((Document.computed site scope f).run j.document).1⟩ }

instance : Evaluator Journal where
  name _ := Document.name
  reset j := { document := j.document.reset }
  beginEvaluation j := { document := j.document.forget }
  testMatch j := Document.testMatch j.document
  applyResult result effect := onDocument (Document.applyResult result effect)
  completions t n := onDocument (Document.completions t n)
  interpretToken token := do
    let j ← get
    let (text, document) := (Document.interpretToken token).run j.document
    set { j with document }
    return text
  evaluateFormula site scope f := do
    modify (note site scope f)
    onDocument (Document.evaluateFormula site scope f)
  evaluateText site scope text := onDocument (Document.evaluateText site scope text)

/-- The journal of the document. -/
def IsOf (j : Journal) (d : Document) : Prop := j.document = d

theorem agreeOnPieces : AgreeOnPieces IsOf where
  formula site scope f := by
    rintro j _ rfl
    exact ⟨rfl, rfl⟩
  text site scope text := by
    rintro j _ rfl
    exact ⟨rfl, rfl⟩

/-- The journal tells of names that are chosen, and the reserved ones are those of the document. -/
structure IsSound (vs : Bindings) (j : Journal) : Prop where
  declared : j.document.declared = vs
  reserved : j.document.gathered.reserved = Handout.reserved j.handouts
  chosen : Handout.AreChosen vs.names j.handouts

theorem isSound_evaluateFormula (vs : Bindings) (site : Site) (scope : Bindings)
    (f : Formula) :
    Ensures (IsSound vs) (Evaluator.evaluateFormula site scope f) fun _ => True := by
  rintro ⟨d, hs⟩ ⟨rfl, hreserved, hchosen⟩
  refine ⟨?_, fun _ _ => trivial⟩
  -- the document after the formula, whose text goes to a helper or to the output
  let r := (Document.computed site scope f).run d
  have hfinal : final (Evaluator.evaluateFormula site scope f) (⟨d, hs⟩ : Journal) =
      { document := ((Document.emit r.1).run r.2).2
        handouts := hs ++ (f.request? scope).toList.map fun q => ⟨site.node, q, scope, r.1⟩ } := rfl
  rw [hfinal, Document.run_emit]
  obtain ⟨hdeclared', hreserved'⟩ := Document.receive_names r.1 r.2
  rcases hq : f.request? scope with _ | q
  · obtain ⟨g, hrun, -, hkept⟩ := Document.changesNoName_computed hq d
    have hr : r.2 = { d with gathered := g } := hrun
    rw [hr] at hdeclared' hreserved' ⊢
    refine ⟨hdeclared', ?_, ?_⟩
    · rw [hreserved']
      simpa [hkept] using hreserved
    · simpa using hchosen
  · let name := q.choose (d.namesInUse scope)
    have hr : r = (name, d.reserve (if q.reserves name then [name] else [])) := by
      unfold r
      rw [Document.computed_of_request hq]
      exact Document.run_handOut scope q d
    rw [hr] at hdeclared' hreserved' ⊢
    refine ⟨hdeclared', ?_, .snoc hchosen ?_⟩
    · have hlast : (if q.reserves name = true then [name] else []) =
          Handout.reserved [⟨site.node, q, scope, name⟩] := by
        by_cases hres : q.reserves name = true
        · simp [Handout.reserved, Handout.isReserved, hres]
        · simp [Handout.reserved, Handout.isReserved, hres]
      rw [hreserved', Option.toList_some, List.map_singleton, Handout.reserved_append, ← hlast,
        ← hreserved]
      rfl
    · rw [← hreserved]
      rfl

theorem isSound_evaluateText (vs : Bindings) (site : Site) (scope : Bindings) (text : Text) :
    Ensures (IsSound vs) (Evaluator.evaluateText site scope text) fun _ => True := by
  rintro ⟨d, hs⟩ ⟨rfl, hreserved, hchosen⟩
  have hfinal : final (Evaluator.evaluateText site scope text) (⟨d, hs⟩ : Journal) =
      { document := ((Document.emit text).run d).2, handouts := hs } := rfl
  rw [hfinal, Document.run_emit]
  obtain ⟨hdeclared', hreserved'⟩ := Document.receive_names text d
  exact ⟨⟨hdeclared', hreserved'.trans hreserved, hchosen⟩, fun _ _ => trivial⟩

/-- An evaluation tells of names that are chosen. -/
theorem isSound_evaluate (t : MatchTree) (n : NodeId) (overview : Bool) (s : Synthesizer Journal) :
    IsSound s.evaluator.document.declared
      (final (Environment.evaluate t n overview) s).evaluator :=
  Synthesizer.evaluate_keeps (isSound_evaluateFormula _) (isSound_evaluateText _) t n overview
    ⟨rfl, rfl, .nil⟩

end Journal

/-! ## The names of a walk -/

/-- The journal is that of the walk. A name that is handed out is not declared, is the value of no
variable in scope, and is not reserved. So what was reserved before is not handed out again, and a
letter that was handed out without being reserved comes again if and only if no variable in scope
has it, no handout between reserves it, and the request wants it. -/
theorem unreserved_letters_are_handed_out_again (t : MatchTree) (n : NodeId) (overview : Bool)
    (s : Synthesizer Document) :
    let x : Session (Synthesizer Journal) Text := Environment.evaluate t n overview
    let y : Session (Synthesizer Document) Text := Environment.evaluate t n overview
    let u : Synthesizer Journal := { evaluator := { document := s.evaluator }, cache := s.cache }
    let declared := s.evaluator.declared.names
    let hs := (final x u).evaluator.handouts
    outcome x u = outcome y s ∧ (final x u).evaluator.document = (final y s).evaluator ∧
      (∀ pre b post, hs = pre ++ b :: post →
        b.name ∉ declared ++ b.scope.values ++ Handout.reserved pre) ∧
      ∀ pre a mid b post, hs = pre ++ a :: (mid ++ b :: post) →
        (a.isReserved = true → b.name ≠ a.name) ∧
        (a.isReserved = false → (b.name = a.name ↔
          (a.name ∉ b.scope.values ∧ a.name ∉ Handout.reserved mid) ∧
            b.request.Wants (declared ++ b.scope.values ++ Handout.reserved (pre ++ mid))
              a.name)) := by
  intro x y u declared hs
  have hagree : Agree (SameCache Journal.IsOf) (SameCache Journal.IsOf) x y := by
    apply agree_evaluate
    · rintro _ _ ⟨hcache, hdocument⟩
      exact ⟨hcache, congrArg Document.forget hdocument⟩
    · exact Journal.agreeOnPieces.agreeOn t
  obtain ⟨hout, -, hdocument⟩ := hagree u s ⟨rfl, rfl⟩
  have hchosen : Handout.AreChosen declared hs := (Journal.isSound_evaluate t n overview u).chosen
  refine ⟨hout, hdocument, fun pre b post hsplit => ?_, fun pre a mid b post hsplit => ?_⟩
  · have hfree := NameRequest.choose_not_mem (declared ++ b.scope.values ++ Handout.reserved pre)
      b.request
    rwa [← hchosen.chosen hsplit] at hfree
  · rw [hsplit] at hchosen
    exact ⟨hchosen.ne_of_reserved, hchosen.eq_iff⟩

/-- Both effects want the free name `i`, and the outer one gets another name. -/
theorem nested_free_names_differ :
    let t := nestedTree "${freeName(i)} ${x}".toList "${freeName(i)}".toList
    let x : Session (Synthesizer Journal) Text := Environment.evaluate t 2 false
    let u : Synthesizer Journal :=
      { evaluator := { document := blankSession.evaluator }, cache := blankSession.cache }
    let a : Handout := ⟨0, .free ['i'], [], ['i']⟩
    let b : Handout := ⟨2, .free ['i'], [(['x'], ['i'])], ['i', '2']⟩
    (final x u).evaluator.handouts = [a, b] ∧ a.isReserved = true ∧ b.name ≠ a.name ∧
      outcome x u = .ok "i2 i".toList := by
  intro t x u a b
  have hhandouts : (final x u).evaluator.handouts = [a, b] := by decide +kernel
  obtain ⟨-, -, -, hpairs⟩ := unreserved_letters_are_handed_out_again t 2 false blankSession
  exact ⟨hhandouts, rfl, (hpairs [] a [] b [] hhandouts).1 rfl, by decide +kernel⟩

/-- The inner loop, the outer loop and the free name behind it all get `i`. -/
theorem nested_loops_share_their_variable :
    let t := nestedTree "for (int ${iter};;) { int ${freeName(i)}; ${x} }".toList
      "for (int ${iter};;) ;".toList
    let x : Session (Synthesizer Journal) Text := Environment.evaluate t 2 false
    let y : Session (Synthesizer Document) Text := Environment.evaluate t 2 false
    let u : Synthesizer Journal :=
      { evaluator := { document := blankSession.evaluator }, cache := blankSession.cache }
    let scope : Bindings := [(['x'], "for (int i;;) ;".toList)]
    (final x u).evaluator.handouts =
        [⟨0, .loop, [], ['i']⟩, ⟨2, .loop, scope, ['i']⟩, ⟨2, .free ['i'], scope, ['i']⟩] ∧
      outcome y blankSession = .ok "for (int i;;) { int i; for (int i;;) ; }".toList := by
  refine ⟨?_, ?_⟩
  · decide +kernel
  · decide +kernel

end SnippetEngine
