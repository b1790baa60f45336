-- What the pieces of a snippet contribute, and where it goes: to the output, or to a helper while
-- one is open. A capture keeps what the evaluation of its formula answers, and that is nothing
-- while a helper is open. So a reference gives back what was captured if it went to the output, and
-- what went to a helper is lost to it.
import SnippetEngine.Proofs.Document.Names
import SnippetEngine.Proofs.Session.Cache
import SnippetEngine.Proofs.Template.RoundTrip
import SnippetEngine.Proofs.Text.Lines

namespace SnippetEngine

open Text Session

/-! ## What a formula changes -/

/-- What a formula may change of the gathered things. -/
inductive Gathered.Change : Gathered → Gathered → Prop
  | nothing (g : Gathered) : Change g g
  | reserve (g : Gathered) (name : Text) : Change g { g with reserved := g.reserved ++ [name] }
  | request (g : Gathered) {name : Text} (htrimmed : trim name = name) (hne : name ≠ [])
    (hnew : name ∉ g.imports) : Change g { g with imports := g.imports ++ [name] }
  | openHelper (g : Gathered) (effectId : Text) :
    Change g { g with inHelper := true, helpers := g.helpers ++ [{ effectId, code := [] }] }
  | closeHelper (g : Gathered) : Change g { g with inHelper := false }

namespace Document

/-- The step changes a document in one of the ways of a formula, and reserves no name. -/
def ChangesNoName {α : Type} (x : StateM Document α) : Prop :=
  ∀ d : Document, ∃ g, (x.run d).2 = { d with gathered := g } ∧ d.gathered.Change g ∧
    g.reserved = d.gathered.reserved

theorem changesNoName_requestImport {name : Text} (h : trim name = name) :
    ChangesNoName (do modify (requestImport name); return ([] : Text)) := by
  intro d
  change ∃ g, requestImport name d = { d with gathered := g } ∧ _
  unfold requestImport
  split
  · exact ⟨_, rfl, .nothing _, rfl⟩
  next hnew =>
    rw [Bool.or_eq_true, not_or] at hnew
    exact ⟨_, rfl, .request _ h (by simpa using hnew.1) (by simpa using hnew.2), rfl⟩

/-- A formula that asks for no name. -/
theorem changesNoName_computed {site : Site} {scope : Bindings} {f : Formula}
    (h : f.request? scope = none) : ChangesNoName (computed site scope f) := by
  intro d
  rcases f with ⟨name, _ | ⟨argument, rest⟩, capture⟩
  · change (if scope.value? name = none ∧ name = "iter".toList then _ else _) = none at h
    change ∃ g, ((valueOf site scope name).run d).2 = { d with gathered := g } ∧ _
    unfold valueOf
    rcases hvalue : scope.value? name with _ | value
    · have hiter : name ≠ "iter".toList := by
        intro hname
        rw [if_pos ⟨hvalue, hname⟩] at h
        cases h
      simp only
      split
      · exact ⟨_, rfl, .nothing _, rfl⟩
      split
      · exact ⟨_, rfl, .nothing _, rfl⟩
      split
      · exact ⟨_, rfl, .nothing _, rfl⟩
      split
      · exact ⟨_, rfl, .nothing _, rfl⟩
      split
      · exact ⟨_, rfl, .openHelper _ _, rfl⟩
      split
      · exact ⟨_, rfl, .closeHelper _, rfl⟩
      · exact ⟨_, rfl, .nothing _, rfl⟩
    · exact ⟨_, rfl, .nothing _, rfl⟩
  · change (if name = "freeName".toList then _ else _) = none at h
    have hfree : name ≠ "freeName".toList := by
      intro hname
      rw [if_pos hname] at h
      cases h
    change ∃ g, ((resultOf site scope name (trim argument)).run d).2 = { d with gathered := g } ∧ _
    unfold resultOf
    split
    · exact changesNoName_requestImport (trim_trim argument) d
    split
    · exact ⟨_, rfl, .nothing _, rfl⟩
    split
    · exact ⟨_, rfl, .nothing _, rfl⟩
    · exact ⟨_, rfl, .nothing _, rfl⟩

theorem changes_handOut (scope : Bindings) (q : NameRequest) (d : Document) :
    ∃ g, ((handOut scope q).run d).2 = { d with gathered := g } ∧ d.gathered.Change g := by
  rw [run_handOut]
  dsimp only
  split
  · exact ⟨_, rfl, .reserve _ _⟩
  · rw [reserve_nil]
    exact ⟨_, rfl, .nothing _⟩

/-- A formula changes a document in one of these ways. -/
theorem changes_computed (site : Site) (scope : Bindings) (f : Formula) (d : Document) :
    ∃ g, ((computed site scope f).run d).2 = { d with gathered := g } ∧ d.gathered.Change g := by
  rcases hq : f.request? scope with _ | q
  · obtain ⟨g, hrun, hchange, -⟩ := changesNoName_computed hq d
    exact ⟨g, hrun, hchange⟩
  · rw [computed_of_request hq]
    exact changes_handOut scope q d

end Document

/-! ## Contributions -/

/-- The text that a piece stands for. It goes to the helper of that number, counted from 1 in the
order in which helpers were opened, or else to the output. -/
structure Contribution where
  text : Text
  helper : Option Nat
  deriving DecidableEq

namespace Contribution

/-- What the evaluation of the piece answers. -/
def answer (c : Contribution) : Text := if c.helper.isNone then c.text else []

/-- The texts that go to the output, or to one helper. -/
def textFor (target : Option Nat) (cs : List Contribution) : Text :=
  (cs.filter (·.helper == target)).flatMap (·.text)

theorem textFor_cons (target : Option Nat) (c : Contribution) (cs : List Contribution) :
    textFor target (c :: cs) = (if c.helper = target then c.text else []) ++ textFor target cs := by
  unfold textFor
  by_cases h : c.helper = target
  · simp [h]
  · simp [h]

theorem flatMap_answer (cs : List Contribution) : cs.flatMap answer = textFor none cs := by
  induction cs with
  | nil => rfl
  | cons c cs ih =>
    rw [textFor_cons, List.flatMap_cons, ih, answer]
    simp only [Option.isNone_iff_eq_none]

end Contribution

/-- The variable that keeps the answer for a piece. -/
def Piece.capture? : Piece → Option Text
  | .text _ => none
  | .formula f => f.capture

/-- The variables behind a piece that keeps the text in the variable `capture`, if it is given. -/
def Bindings.keep (bs : Bindings) (capture : Option Text) (text : Text) : Bindings :=
  capture.elim bs fun name => bs.bind name text

namespace Document

/-- The number of the helper that is open. -/
def openHelper? (d : Document) : Option Nat :=
  if d.gathered.inHelper then some d.gathered.helpers.length else none

/-- The text that a piece stands for. -/
def represented (site : Site) (scope : Bindings) : Piece → StateM Document Text
  | .text text => return text
  | .formula formula => computed site scope formula

def contribution (site : Site) (scope : Bindings) (piece : Piece) :
    StateM Document Contribution := do
  let text ← represented site scope piece
  let d ← get
  let _ ← emit text
  return ⟨text, d.openHelper?⟩

/-- The contributions of the nodes of a snippet, in the order of the code. -/
def contributions (tree : MatchTree) (node : NodeId) (application : Application) :
    Bindings → Snippet → StateM Document (List Contribution)
  | _, [] => return []
  | scope, s :: ss => do
    let c ← contribution ⟨tree, node, application, s.effect⟩ scope s.piece
    let cs ← contributions tree node application (scope.keep s.piece.capture? c.answer) ss
    return c :: cs

/-- The document with the text in the helper that is open, if one is. -/
def receive (text : Text) (d : Document) : Document :=
  if d.gathered.inHelper then
    { d with gathered := { d.gathered with helpers := addToLast text d.gathered.helpers } }
  else d

theorem run_emit (text : Text) (d : Document) :
    (emit text).run d = (Contribution.answer ⟨text, d.openHelper?⟩, d.receive text) := by
  unfold emit receive openHelper? Contribution.answer
  by_cases h : d.gathered.inHelper = true
  · simp [h]
    rfl
  · simp [h]
    rfl

theorem run_contribution (site : Site) (scope : Bindings) (piece : Piece) (d : Document) :
    (contribution site scope piece).run d =
      let r := (represented site scope piece).run d
      (⟨r.1, r.2.openHelper?⟩, r.2.receive r.1) := by
  have hrun : (contribution site scope piece).run d =
      let r := (represented site scope piece).run d
      (⟨r.1, r.2.openHelper?⟩, ((emit r.1).run r.2).2) := rfl
  rw [hrun]
  simp only [run_emit]

theorem run_evaluatePiece (site : Site) (scope : Bindings) (piece : Piece) (d : Document) :
    (Evaluator.evaluatePiece site scope piece : Session Document (Text × Bindings)).run.run d =
      let c := (contribution site scope piece).run d
      (.ok (c.1.answer, scope.keep piece.capture? c.1.answer), c.2) := by
  have hrun :
      (Evaluator.evaluatePiece site scope piece : Session Document (Text × Bindings)).run.run d =
      let r := (represented site scope piece).run d
      let e := (emit r.1).run r.2
      (.ok (e.1, scope.keep piece.capture? e.1), e.2) := by
    rcases piece with text | ⟨name, arguments, _ | v⟩
    · rfl
    · rfl
    · rfl
  rw [hrun, run_contribution]
  simp only [run_emit]

theorem run_contributions_cons (t : MatchTree) (n : NodeId) (a : Application) (scope : Bindings)
    (s : SnippetNode) (ss : Snippet) (d : Document) :
    (contributions t n a scope (s :: ss)).run d =
      let c := (contribution ⟨t, n, a, s.effect⟩ scope s.piece).run d
      let cs := (contributions t n a (scope.keep s.piece.capture? c.1.answer) ss).run c.2
      (c.1 :: cs.1, cs.2) := rfl

/-- The text of a snippet is what its pieces contribute to the output. -/
theorem run_render (t : MatchTree) (n : NodeId) (a : Application) (scope : Bindings)
    (snippet : Snippet) (d : Document) :
    (Evaluator.render t n a scope snippet : Session Document Text).run.run d =
      let cs := (contributions t n a scope snippet).run d
      (.ok (Contribution.textFor none cs.1), cs.2) := by
  induction snippet generalizing scope d with
  | nil => rfl
  | cons s ss ih =>
    have hpiece := run_evaluatePiece ⟨t, n, a, s.effect⟩ scope s.piece d
    rw [run_contributions_cons]
    unfold Evaluator.render
    refine (run_bind_ok _ (congrArg Prod.fst hpiece)).trans ?_
    unfold final
    rw [hpiece]
    have hrest := ih (scope.keep s.piece.capture?
      ((contribution ⟨t, n, a, s.effect⟩ scope s.piece).run d).1.answer)
      ((contribution ⟨t, n, a, s.effect⟩ scope s.piece).run d).2
    refine (run_bind_ok _ (congrArg Prod.fst hrest)).trans ?_
    unfold final
    rw [hrest]
    simp only [← Contribution.flatMap_answer, List.flatMap_cons]
    rfl

/-! ## The code of a helper -/

/-- The code of the helper number `k`, counted from 0. -/
def helperCode (d : Document) (k : Nat) : Text := (d.gathered.helpers[k]?).elim [] (·.code)

theorem code_addToLast (text : Text) (hs : List Helper) (k : Nat) :
    ((addToLast text hs)[k]?).elim [] Helper.code =
      (hs[k]?).elim [] Helper.code ++ if hs.length = k + 1 then text else [] := by
  fun_induction addToLast text hs generalizing k with
  | case1 => simp
  | case2 h =>
    cases k with
    | zero => simp
    | succ k => simp
  | case3 h hs hne ih =>
    cases k with
    | zero =>
      have : hs ≠ [] := fun h => hne h
      simp [this]
    | succ k => simpa using ih k

theorem helperCode_receive (text : Text) (d : Document) (k : Nat) :
    (d.receive text).helperCode k =
      d.helperCode k ++ if d.openHelper? = some (k + 1) then text else [] := by
  unfold receive openHelper?
  by_cases h : d.gathered.inHelper = true
  · simp only [h, if_true, Option.some.injEq]
    exact code_addToLast text d.gathered.helpers k
  · simp [h]

/-- No formula writes to a helper by itself. -/
theorem helperCode_change {d : Document} {g : Gathered} (h : d.gathered.Change g) (k : Nat) :
    helperCode { d with gathered := g } k = d.helperCode k := by
  unfold helperCode
  cases h with
  | openHelper effectId =>
    rcases Nat.lt_trichotomy k d.gathered.helpers.length with hk | hk | hk
    · rw [List.getElem?_append_left hk]
    · rw [hk, List.getElem?_concat_length, List.getElem?_eq_none (Nat.le_refl _)]
      rfl
    · rw [List.getElem?_eq_none (Nat.le_of_lt hk), List.getElem?_eq_none]
      rw [List.length_append]
      exact hk
  | _ => rfl

theorem helperCode_represented (site : Site) (scope : Bindings) (piece : Piece) (d : Document)
    (k : Nat) : ((represented site scope piece).run d).2.helperCode k = d.helperCode k := by
  rcases piece with text | formula
  · rfl
  · obtain ⟨g, hrun, hchange⟩ := changes_computed site scope formula d
    change ((computed site scope formula).run d).2.helperCode k = _
    rw [hrun, helperCode_change hchange]

/-- The code of a helper grows by what is contributed to it. -/
theorem helperCode_contributions (t : MatchTree) (n : NodeId) (a : Application) (scope : Bindings)
    (snippet : Snippet) (d : Document) (k : Nat) :
    let cs := (contributions t n a scope snippet).run d
    cs.2.helperCode k = d.helperCode k ++ Contribution.textFor (some (k + 1)) cs.1 := by
  induction snippet generalizing scope d with
  | nil => exact (List.append_nil _).symm
  | cons s ss ih =>
    rw [run_contributions_cons]
    dsimp only at ih ⊢
    rw [ih, Contribution.textFor_cons, run_contribution]
    dsimp only
    rw [helperCode_receive, helperCode_represented, List.append_assoc]

/-! ## Captures and references -/

end Document

/-- The node number `i` captures what it stands for in the variable `v`. -/
def Snippet.CapturesAt (snippet : Snippet) (i : Nat) (v : Text) : Prop :=
  ∃ s, snippet[i]? = some s ∧ s.piece.capture? = some v

/-- The node number `i` is the formula that stands for the variable `v`. -/
def Snippet.RefersAt (snippet : Snippet) (i : Nat) (v : Text) : Prop :=
  ∃ s capture, snippet[i]? = some s ∧ s.piece = .formula ⟨v, [], capture⟩

namespace Document

open Snippet

variable {t : MatchTree} {n : NodeId} {a : Application} {v value : Text}

theorem value?_keep {bs : Bindings} {capture : Option Text} (h : capture ≠ some v) (text : Text) :
    (bs.keep capture text).value? v = bs.value? v := by
  rcases capture with _ | w
  · rfl
  · exact Bindings.value?_bind_ne text bs fun he => h (congrArg some he.symm)

/-- A reference stands for the value that the variable has, if it is not captured anew before. -/
theorem text_of_refersAt {scope : Bindings} {snippet : Snippet} (d : Document) {j : Nat}
    (hvalue : scope.value? v = some value) (href : snippet.RefersAt j v)
    (hbetween : ∀ k < j, ¬ snippet.CapturesAt k v) :
    ∃ r, ((contributions t n a scope snippet).run d).1[j]? = some r ∧ r.text = value := by
  induction snippet generalizing scope d j with
  | nil =>
    obtain ⟨_, _, hnode, _⟩ := href
    cases hnode
  | cons s ss ih =>
    rw [run_contributions_cons]
    cases j with
    | zero =>
      obtain ⟨_, capture, hnode, hpiece⟩ := href
      cases hnode
      refine ⟨_, rfl, ?_⟩
      rw [run_contribution, hpiece]
      change ((valueOf _ scope v).run d).1 = value
      unfold valueOf
      rw [hvalue]
      rfl
    | succ j =>
      apply ih
      · rw [value?_keep, hvalue]
        exact fun hs => hbetween 0 (Nat.succ_pos j) ⟨s, rfl, hs⟩
      · exact href
      · exact fun k hk => hbetween (k + 1) (Nat.succ_lt_succ hk)

/-- A reference stands for what the evaluation of the captured formula answered. -/
theorem text_of_capturesAt {scope : Bindings} {snippet : Snippet} (d : Document) {i j : Nat}
    (hij : i < j) (hcapture : snippet.CapturesAt i v) (href : snippet.RefersAt j v)
    (hbetween : ∀ k, i < k → k < j → ¬ snippet.CapturesAt k v) :
    ∃ c r, ((contributions t n a scope snippet).run d).1[i]? = some c ∧
      ((contributions t n a scope snippet).run d).1[j]? = some r ∧ r.text = c.answer := by
  induction snippet generalizing scope d i j with
  | nil =>
    obtain ⟨_, hnode, _⟩ := hcapture
    cases hnode
  | cons s ss ih =>
    rw [run_contributions_cons]
    obtain ⟨j, rfl⟩ := Nat.exists_eq_succ_of_ne_zero (Nat.ne_zero_of_lt hij)
    cases i with
    | zero =>
      obtain ⟨_, hnode, hv⟩ := hcapture
      cases hnode
      have hvalue : (scope.keep s.piece.capture?
          ((contribution ⟨t, n, a, s.effect⟩ scope s.piece).run d).1.answer).value? v =
          some ((contribution ⟨t, n, a, s.effect⟩ scope s.piece).run d).1.answer := by
        rw [hv]
        exact Bindings.value?_bind_self v _ scope
      have href' : RefersAt ss j v := href
      obtain ⟨r, hr, htext⟩ := text_of_refersAt (t := t) (n := n) (a := a)
        ((contribution ⟨t, n, a, s.effect⟩ scope s.piece).run d).2 hvalue href'
        fun k hk => hbetween (k + 1) (Nat.succ_pos k) (Nat.succ_lt_succ hk)
      exact ⟨_, r, rfl, hr, htext⟩
    | succ i =>
      apply ih
      · exact Nat.lt_of_succ_lt_succ hij
      · exact hcapture
      · exact href
      · exact fun k hik hkj => hbetween (k + 1) (Nat.succ_lt_succ hik) (Nat.succ_lt_succ hkj)

end Document

/-! ## Applications -/

/-- The value of an application is what its pieces contribute to the output. -/
theorem Synthesizer.run_evaluateEffect {t : MatchTree} {n : NodeId} {a : Application}
    {s : Synthesizer Document} {snippet : Snippet} (happlies : t.Applies n a)
    (hserved : s.served a.effect = .ok snippet) (values : List Text) :
    let scope := Bindings.ofList ((a.effect.effect.parameters.map (·.name)).zip values)
    let cs := (Document.contributions t n a scope snippet).run s.evaluator
    ∃ cache, (Environment.evaluateEffect t n values : Session _ Text).run.run s =
      (.ok (trim (Contribution.textFor none cs.1)), { evaluator := cs.2, cache }) := by
  obtain ⟨cache, hsnippet, _, _⟩ := run_snippet_of_ok hserved
  refine ⟨cache, ?_⟩
  have hrender := run_onEvaluator (Evaluator.render t n a
    (Bindings.ofList ((a.effect.effect.parameters.map (·.name)).zip values)) snippet)
    { s with cache }
  rw [Document.run_render] at hrender
  change (Synthesizer.evaluateEffect t n values).run.run s = _
  unfold Synthesizer.evaluateEffect
  rw [MatchTree.application?_eq_some.mpr happlies]
  change (Synthesizer.snippet a.effect >>= _).run.run s = _
  refine (run_bind_ok _ (congrArg Prod.fst hsnippet)).trans ?_
  unfold final
  rw [hsnippet]
  refine (run_bind_ok _ (congrArg Prod.fst hrender)).trans ?_
  unfold final
  rw [hrender]
  rfl

/-- Each piece of the code contributes one text, to the output or to the code of a helper. A
reference behind a capture contributes what the captured formula contributed if that went to the
output, and nothing if it went to a helper. -/
theorem references_give_back_what_went_to_the_output {t : MatchTree} {n : NodeId} {a : Application}
    {s : Synthesizer Document} {snippet : Snippet} (happlies : t.Applies n a)
    (hserved : s.served a.effect = .ok snippet) (values : List Text) :
    let scope := Bindings.ofList ((a.effect.effect.parameters.map (·.name)).zip values)
    let cs := ((Document.contributions t n a scope snippet).run s.evaluator).1
    let x : Session (Synthesizer Document) Text := Environment.evaluateEffect t n values
    outcome x s = .ok (trim (Contribution.textFor none cs)) ∧
    (∀ k, (final x s).evaluator.helperCode k =
      s.evaluator.helperCode k ++ Contribution.textFor (some (k + 1)) cs) ∧
    ∀ i j v, i < j → snippet.CapturesAt i v → snippet.RefersAt j v →
      (∀ k, i < k → k < j → ¬ snippet.CapturesAt k v) →
      ∃ c r, cs[i]? = some c ∧ cs[j]? = some r ∧
        (c.helper = none → r.text = c.text) ∧ (c.helper ≠ none → r.text = []) ∧
        (r.text = c.text ↔ c.helper = none ∨ c.text = []) := by
  intro scope cs x
  obtain ⟨cache, hrun⟩ := Synthesizer.run_evaluateEffect happlies hserved values
  refine ⟨congrArg Prod.fst hrun, fun k => ?_, fun i j v hij hcapture href hbetween => ?_⟩
  · unfold final
    rw [hrun]
    exact Document.helperCode_contributions t n a scope snippet s.evaluator k
  · obtain ⟨c, r, hc, hr, htext⟩ :=
      Document.text_of_capturesAt s.evaluator hij hcapture href hbetween
    refine ⟨c, r, hc, hr, ?_⟩
    rw [htext, Contribution.answer]
    rcases c with ⟨text, _ | k⟩
    · simp
    · simp [eq_comm]

/-! ## Captures in front of a helper and inside -/

/-- The application of an effect without parameters. -/
def Application.ofCode (id code : Text) : Application where
  effect := ⟨0, { id, code }⟩
  pattern := []
  children := []
  ghost := 1

/-- The tree of that application alone. -/
def MatchTree.ofCode (id code : Text) : MatchTree where
  nodes := #[{ kind := .application (.ofCode id code) }, { parent := some 0, kind := .argument {} }]

theorem MatchTree.applies_ofCode (id code : Text) :
    (MatchTree.ofCode id code).Applies 0 (.ofCode id code) := ⟨_, rfl, rfl⟩

/-- A session over an empty text. -/
def blankSession : Synthesizer Document where
  evaluator := Document.ofText [] {}

/-- Code that captures a class name in front of a helper and declares the class in the helper. -/
def openCapture : List Piece :=
  [.text "new ".toList, .formula ⟨"freeName".toList, ["Foo".toList], some ['c']⟩, .text "()".toList,
    .formula ⟨"helper".toList, [], none⟩, .text "class ".toList, .formula ⟨['c'], [], none⟩]

/-- The class in the helper has the name that was captured in front of it. -/
theorem name_captured_in_the_output :
    let a := Application.ofCode ['e'] (Snippet.print openCapture)
    let snippet : Snippet := openCapture.map (SnippetNode.mk a.effect)
    let t := MatchTree.ofCode ['e'] (Snippet.print openCapture)
    let cs := ((Document.contributions t 0 a [] snippet).run blankSession.evaluator).1
    let x : Session (Synthesizer Document) Text := Environment.evaluateEffect t 0 []
    blankSession.served a.effect = .ok snippet ∧
      snippet.CapturesAt 1 ['c'] ∧ snippet.RefersAt 5 ['c'] ∧
      outcome x blankSession = .ok "new Foo()".toList ∧
      (final x blankSession).evaluator.helperCode 0 = "class Foo".toList ∧
      ∃ c r, cs[1]? = some c ∧ cs[5]? = some r ∧ c.helper = none ∧ r.helper = some 1 ∧
        r.text = c.text := by
  intro a snippet t cs x
  have hserved : blankSession.served a.effect = .ok snippet := by decide +kernel
  have hcapture : snippet.CapturesAt 1 ['c'] := ⟨_, rfl, rfl⟩
  have href : snippet.RefersAt 5 ['c'] := ⟨_, none, rfl, rfl⟩
  obtain ⟨hvalue, hcode, hrefs⟩ := references_give_back_what_went_to_the_output
    (MatchTree.applies_ofCode ['e'] (Snippet.print openCapture)) hserved []
  obtain ⟨c, r, hc, hr, hopen, -, -⟩ := hrefs 1 5 ['c'] (by decide) hcapture href fun k hk hk' => by
    rintro ⟨s, hs, hv⟩
    have : k = 2 ∨ k = 3 ∨ k = 4 := by omega
    rcases this with rfl | rfl | rfl
    all_goals
      cases hs
      cases hv
  have hplain : (cs[1]?).map (·.helper) = some none := by decide +kernel
  have hhelper : (cs[5]?).map (·.helper) = some (some 1) := by decide +kernel
  change cs[1]? = some c at hc
  change cs[5]? = some r at hr
  rw [hc] at hplain
  rw [hr] at hhelper
  have hc' : c.helper = none := Option.some.inj hplain
  refine ⟨hserved, hcapture, href, hvalue.trans ?_, (hcode 0).trans ?_, c, r, hc, hr, hc',
    Option.some.inj hhelper, hopen hc'⟩
  · decide +kernel
  · decide +kernel

/-- Code that captures the class name where it declares the class, and refers to it behind the
helper. -/
def closedCapture : List Piece :=
  [.formula ⟨"helper".toList, [], none⟩, .text "class ".toList,
    .formula ⟨"freeName".toList, ["Foo".toList], some ['c']⟩,
    .formula ⟨"endHelper".toList, [], none⟩, .text "new ".toList, .formula ⟨['c'], [], none⟩,
    .text "()".toList]

/-- The class in the helper has a name, and the reference to it is empty. -/
theorem name_captured_in_the_helper :
    let a := Application.ofCode ['e'] (Snippet.print closedCapture)
    let snippet : Snippet := closedCapture.map (SnippetNode.mk a.effect)
    let t := MatchTree.ofCode ['e'] (Snippet.print closedCapture)
    let cs := ((Document.contributions t 0 a [] snippet).run blankSession.evaluator).1
    let x : Session (Synthesizer Document) Text := Environment.evaluateEffect t 0 []
    blankSession.served a.effect = .ok snippet ∧
      snippet.CapturesAt 2 ['c'] ∧ cs[2]? = some ⟨"Foo".toList, some 1⟩ ∧
      snippet.RefersAt 5 ['c'] ∧ cs[5]? = some ⟨[], none⟩ ∧
      outcome x blankSession = .ok "new ()".toList ∧
      (final x blankSession).evaluator.helperCode 0 = "class Foo".toList := by
  intro a snippet t cs x
  refine ⟨?_, ⟨_, rfl, rfl⟩, ?_, ⟨_, none, rfl, rfl⟩, ?_, ?_, ?_⟩
  · decide +kernel
  · decide +kernel
  · decide +kernel
  · decide +kernel
  · decide +kernel

end SnippetEngine
