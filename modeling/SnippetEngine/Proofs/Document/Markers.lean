-- Cursor markers in an evaluation. If a piece of the marker is in no other text that the evaluation
-- meets, and no such text begins with an end of the piece, none makes up a part of a marker, and
-- trimming and renaming pass the markers by. So what the evaluation gives, to the output and to
-- helpers, has the piece in whole markers only.
import SnippetEngine.Proofs.Code.Renaming
import SnippetEngine.Proofs.Document.Contributions
import SnippetEngine.Proofs.Session.Invariants
import SnippetEngine.Proofs.Text.Markers

namespace SnippetEngine

open Session Text

/-! ## Identifiers beside a piece of a marker -/

namespace Code

variable {f : Text → Text} {q w code : Text}

theorem trimStart_mapIdentifiers (hf : ∀ name, IsRun name → IsRun (f name)) (code : Text) :
    trimStart (mapIdentifiers f code) = mapIdentifiers f (trimStart code) := by
  have hrun : ∀ name rest, IsRun name → trimStart (name ++ rest) = name ++ rest := by
    intro name rest hname
    obtain ⟨d, r, rfl⟩ := List.exists_cons_of_ne_nil hname.ne_nil
    have hd := not_isBlank_of_isIdentifierChar (hname.all d List.mem_cons_self)
    exact List.dropWhile_cons_of_neg (by simp [hd])
  induction code using identifier_induction with
  | nil => simp [trimStart]
  | other d r hd ih =>
    rw [mapIdentifiers_cons hd]
    unfold trimStart at ih ⊢
    by_cases hblank : isBlank d = true
    · rw [List.dropWhile_cons_of_pos hblank, List.dropWhile_cons_of_pos hblank, ih]
    · rw [List.dropWhile_cons_of_neg hblank, List.dropWhile_cons_of_neg hblank,
        mapIdentifiers_cons hd]
  | run name rest hname hrest ih =>
    rw [mapIdentifiers_run hname hrest, hrun _ _ (hf name hname), hrun _ _ hname,
      mapIdentifiers_run hname hrest]

theorem IsRun.not_begins {name rest : Text} (hname : IsRun name) (hne : q ≠ [])
    (hq : ∀ d ∈ q, isIdentifierChar d = false) : ¬ q <+: name ++ rest := by
  obtain ⟨b, q, rfl⟩ := List.exists_cons_of_ne_nil hne
  obtain ⟨d, r, rfl⟩ := List.exists_cons_of_ne_nil hname.ne_nil
  intro h
  obtain rfl := (List.cons_prefix_cons.mp h).1
  exact hname.not_mem (hq b List.mem_cons_self) List.mem_cons_self

/-- A map to identifiers changes nothing in front of the first one. -/
theorem prefix_mapIdentifiers_iff (hf : ∀ name, IsRun name → IsRun (f name))
    (hq : ∀ d ∈ q, isIdentifierChar d = false) : q <+: mapIdentifiers f code ↔ q <+: code := by
  induction code using identifier_induction generalizing q with
  | nil => rw [mapIdentifiers_nil]
  | other d r hd ih =>
    rw [mapIdentifiers_cons hd]
    rcases q with _ | ⟨b, q⟩
    · exact iff_of_true List.nil_prefix List.nil_prefix
    · rw [List.cons_prefix_cons, List.cons_prefix_cons,
        ih fun c hc => hq c (List.mem_cons_of_mem b hc)]
  | run name rest hname hrest ih =>
    rw [mapIdentifiers_run hname hrest]
    by_cases hne : q = []
    · rw [hne]
      exact iff_of_true List.nil_prefix List.nil_prefix
    · exact iff_of_false ((hf name hname).not_begins hne hq) (hname.not_begins hne hq)

theorem infix_mapIdentifiers_iff (hf : ∀ name, IsRun name → IsRun (f name)) (hne : w ≠ [])
    (hw : ∀ d ∈ w, isIdentifierChar d = false) : w <:+: mapIdentifiers f code ↔ w <:+: code := by
  have hapart : ∀ name, IsRun name → ∀ d ∈ name, d ∉ w :=
    fun name hname d hd hmem => hname.not_mem (hw d hmem) hd
  induction code using identifier_induction with
  | nil => rw [mapIdentifiers_nil]
  | other d r hd ih =>
    rw [List.infix_cons_iff, ← prefix_mapIdentifiers_iff hf hw, mapIdentifiers_cons hd,
      List.infix_cons_iff]
    exact or_congr_right ih
  | run name rest hname hrest ih =>
    rw [mapIdentifiers_run hname hrest, infix_append_iff_right hne (hapart _ (hf name hname)),
      infix_append_iff_right hne (hapart _ hname)]
    exact ih

theorem lacks_mapIdentifiers (hf : ∀ name, IsRun name → IsRun (f name)) (hne : w ≠ [])
    (hw : ∀ d ∈ w, isIdentifierChar d = false) (h : Lacks w code) :
    Lacks w (mapIdentifiers f code) := by
  refine ⟨mt (infix_mapIdentifiers_iff hf hne hw).mp h.notInfix, fun q hq hsuffix hbegins => ?_⟩
  rw [trimStart_mapIdentifiers hf,
    prefix_mapIdentifiers_iff hf fun d hd => hw d (hsuffix.subset hd)] at hbegins
  exact h.front q hq hsuffix hbegins

end Code

/-! ## Markers in code -/

/-- A marker that stays whole in code: no blank at its ends is cut off, no identifier goes on in it,
and it holds no class header that is rewritten. Its piece `w` has no character of an identifier, and
is made up neither in an import line nor in a tag line but by the name or the id in it. -/
structure IsMarker (w m : Text) : Prop extends IsPiece w m where
  isTight : IsTight m
  front : Code.isEdge m.head? = true
  back : Code.isEdge m.getLast? = true
  notPublic : ¬ "public class".toList <:+: m
  notPrivate : ¬ "private class".toList <:+: m
  notIdentifier : ∀ d ∈ w, Code.isIdentifierChar d = false
  notImport : ';' ∉ w
  notTag : ¬ w <:+: Helper.tagLine []

/-- True for a text of identifiers and blanks. -/
def isWording (w : Text) : Bool := w.all fun d => Code.isIdentifierChar d || isBlank d

theorem not_mem_of_isWording {words : Text} {d : Char} (hwords : isWording words = true)
    (hidentifier : Code.isIdentifierChar d = false) (hblank : isBlank d = false) : d ∉ words := by
  intro hd
  have h := List.all_eq_true.mp hwords d hd
  rw [hidentifier, hblank] at h
  cases h

namespace IsMarker

variable {w m code words : Text} {f : Text → Text}

theorem apart_of_isWording (hm : IsMarker w m) (hwords : isWording words = true) :
    ∀ d ∈ words, d ∉ w := fun d hd hmem =>
  not_mem_of_isWording hwords (hm.notIdentifier d hmem) (hm.notBlank d hmem) hd

theorem lacks_of_isWording (hm : IsMarker w m) (hwords : isWording words = true) :
    Lacks w words := .of_disjoint hm.ne_nil (hm.apart_of_isWording hwords)

/-- A map that keeps the identifiers of a marker keeps the marker. -/
theorem mapIdentifiers (hm : IsMarker w m) (hf : ∀ name, Code.IsRun name → Code.IsRun (f name))
    (hkeeps : ∀ name ∈ Code.identifiers m, f name = name) (h : Marked w m code) :
    Marked w m (Code.mapIdentifiers f code) ∧
      (m <:+: Code.mapIdentifiers f code ↔ m <:+: code) := by
  have hmarker : Code.mapIdentifiers f m = m :=
    (Code.mapIdentifiers_congr hkeeps).trans (Code.mapIdentifiers_id m)
  apply h.map hm.toIsPiece fun t => Code.lacks_mapIdentifiers hf hm.ne_nil hm.notIdentifier
  intro t r
  have hfront : Code.isEdge (m ++ r).head? = true := by
    rw [List.head?_append_of_ne_nil _ hm.marker_ne_nil]
    exact hm.front
  rw [Code.mapIdentifiers_append (.inr hfront), Code.mapIdentifiers_append (.inl hm.back), hmarker]

/-- The word `class` is put in the place of others beside a marker, unless they are in it. -/
theorem replaceAll (hm : IsMarker w m) (hwords : isWording words = true)
    (hinner : ¬ words <:+: m) (h : Marked w m code) :
    Marked w m (replaceAll words "class".toList code) ∧
      (m <:+: Text.replaceAll words "class".toList code ↔ m <:+: code) := by
  refine h.replaceAll hm.toIsPiece (fun d hd => ?_) (fun d hd => ?_) hinner (by decide)
    (hm.apart_of_isWording (by decide)) (fun d hd => ?_)
  · exact not_mem_of_isWording hwords (Code.isEdge_some.mp (hd ▸ hm.front)) (hm.isTight.1 d hd)
  · exact not_mem_of_isWording hwords (Code.isEdge_some.mp (hd ▸ hm.back)) (hm.isTight.2 d hd)
  · cases hd
    decide

end IsMarker

/-! ## What an evaluation starts from -/

/-- The texts of a node of a snippet that may come out again: the id of its effect, and its text or
its arguments. -/
def SnippetNode.texts (s : SnippetNode) : List Text :=
  s.effect.effect.id :: match s.piece with
    | .text text => [text]
    | .formula f => f.arguments

/-- The text `w` is in no text that the evaluation of the match starts from, and no end of it begins
what may stand behind a marker. -/
structure Synthesizer.Avoids (t : MatchTree) (n : NodeId) (w : Text) (s : Synthesizer Document) :
    Prop where
  base : ¬ w <:+: s.evaluator.base
  behind : ∀ before after, s.evaluator.around? = some (before, after) → NoStart w after
  elements : ∀ name type element, s.evaluator.declaredType? name = some type →
    TypeName.element? type = some element → Lacks w element
  arguments : ∀ shape, t.shape? n = some shape → ∀ na ∈ shape.arguments, Lacks w (na.2.value false)
  minorTypes : ∀ e, t.Mentions e → Lacks w e.effect.minorType
  snippets : ∀ e, t.Mentions e → ∀ found, s.served e = .ok found →
    ∀ node ∈ found, ∀ text ∈ node.texts, Lacks w text

/-! ## One formula -/

variable {w m : Text}

theorem NameRequest.lacks_choose (hm : IsMarker w m) {inUse : List Text} {q : NameRequest}
    (hq : ∀ desired, q = .free desired → Lacks w desired) : Lacks w (q.choose inUse) := by
  have hrun : ∀ name, (∀ d ∈ name, Code.isIdentifierChar d = true) → Lacks w name := by
    refine fun name hname => .of_disjoint hm.ne_nil fun d hd hmem => ?_
    have hchar := hname d hd
    rw [hm.notIdentifier d hmem] at hchar
    cases hchar
  have hfirst : ∀ desired, Lacks w desired → Lacks w (FreeName.first inUse desired) := by
    intro desired hdesired
    obtain ⟨k, -, hname, -, -⟩ := FreeName.first_eq_candidate inUse desired
    rw [hname]
    unfold FreeName.candidate
    split
    · exact hdesired
    · exact hdesired.append hm.notBlank (hrun _ fun d hd => Code.isIdentifierChar_of_isDigit
        (Nat.isDigit_of_mem_toDigits (by decide) (by decide) hd))
  have hletters : ∀ name ∈ Document.loopNames, ∀ d ∈ name, Code.isIdentifierChar d = true := by
    have hall : (Document.loopNames.all fun name => name.all Code.isIdentifierChar) = true := by
      decide
    exact fun name hname => List.all_eq_true.mp (List.all_eq_true.mp hall name hname)
  cases q with
  | free desired => exact hfirst desired (hq desired rfl)
  | loop =>
    obtain ⟨name, hname, -, hchoose, -⟩ | ⟨-, hchoose, -⟩ := choose_loop_cases inUse
    · rw [hchoose]
      exact hrun name (hletters name hname)
    · rw [hchoose]
      exact hfirst ['i'] (hrun ['i'] (hletters ['i'] (by decide)))

namespace Document

/-- The document has the marker. The piece is neither in an element type that formulas look up nor
in a name that they import, and in helpers it is in whole markers only. -/
structure KeepsOut (w m : Text) (d : Document) : Prop where
  marker : d.config.cursorMarker = m
  elements : ∀ name type element, d.declaredType? name = some type →
    TypeName.element? type = some element → Lacks w element
  imports : ∀ name ∈ d.gathered.imports, Lacks w name
  helpers : ∀ h ∈ d.gathered.helpers, Lacks w h.effectId ∧ Marked w m h.code

/-- The step keeps the piece out, and what it answers has it in whole markers only. -/
def AnswersMarked (w m : Text) (x : StateM Document Text) : Prop :=
  ∀ d : Document, d.KeepsOut w m → (x.run d).2.KeepsOut w m ∧ Marked w m (x.run d).1

theorem answersMarked_pure {text : Text} (h : Lacks w text) : AnswersMarked w m (pure text) :=
  fun _ hd => ⟨hd, .plain h⟩

theorem answersMarked_handOut (hm : IsMarker w m) (scope : Bindings) {q : NameRequest}
    (hq : ∀ desired, q = .free desired → Lacks w desired) :
    AnswersMarked w m (handOut scope q) := by
  intro d hd
  rw [run_handOut]
  exact ⟨⟨hd.marker, hd.elements, hd.imports, hd.helpers⟩, .plain (q.lacks_choose hm hq)⟩

variable {site : Site} {scope : Bindings}

theorem answersMarked_valueOf (hm : IsMarker w m) (hid : Lacks w site.owner.effect.id)
    (htype : Lacks w site.application.effect.effect.minorType)
    (hscope : ∀ v ∈ scope.values, Marked w m v) (name : Text) :
    AnswersMarked w m (valueOf site scope name) := by
  intro d hd
  unfold valueOf
  rcases hvalue : scope.value? name with _ | value
  · dsimp only
    split
    · refine ⟨hd, ?_⟩
      change Marked w m d.config.cursorMarker
      rw [hd.marker]
      exact .self hm.toIsPiece
    split
    · exact answersMarked_pure (hm.lacks_of_isWording (by decide)) d hd
    split
    · exact answersMarked_handOut hm scope (q := .loop) (fun _ hq => nomatch hq) d hd
    split
    · exact answersMarked_pure hid d hd
    split
    · exact answersMarked_pure htype d hd
    split
    · refine ⟨⟨hd.marker, hd.elements, hd.imports, fun h hh => ?_⟩, .plain (.nil hm.ne_nil)⟩
      rcases List.mem_append.mp hh with hold | hopened
      · exact hd.helpers h hold
      · rw [List.mem_singleton.mp hopened]
        exact ⟨hid, .plain (.nil hm.ne_nil)⟩
    split
    · exact ⟨⟨hd.marker, hd.elements, hd.imports, hd.helpers⟩, .plain (.nil hm.ne_nil)⟩
    · exact answersMarked_pure (.nil hm.ne_nil) d hd
  · exact ⟨hd, hscope value (Bindings.mem_values_of_value? hvalue)⟩

theorem keepsOut_requestImport {name : Text} (h : Lacks w name) {d : Document}
    (hd : d.KeepsOut w m) : (requestImport name d).KeepsOut w m := by
  unfold requestImport
  split
  · exact hd
  · refine ⟨hd.marker, hd.elements, fun other hother => ?_, hd.helpers⟩
    rcases List.mem_append.mp hother with hold | hadded
    · exact hd.imports other hold
    · rw [List.mem_singleton.mp hadded]
      exact h

theorem answersMarked_resultOf (hm : IsMarker w m)
    (htype : Lacks w site.application.effect.effect.minorType) {argument : Text}
    (h : Lacks w argument) (name : Text) :
    AnswersMarked w m (resultOf site scope name argument) := by
  intro d hd
  unfold resultOf
  split
  · exact ⟨keepsOut_requestImport h hd, .plain (.nil hm.ne_nil)⟩
  split
  · refine ⟨hd, .plain ?_⟩
    change Lacks w (((d.declaredType? ((scope.value? argument).getD argument)).bind
      TypeName.element?).getD [])
    rcases hdeclared : d.declaredType? ((scope.value? argument).getD argument) with _ | type
    · exact .nil hm.ne_nil
    · rcases helement : TypeName.element? type with _ | element
      · rw [Option.bind_some, helement]
        exact .nil hm.ne_nil
      · rw [Option.bind_some, helement]
        exact hd.elements _ type element hdeclared helement
  split
  · exact answersMarked_pure htype d hd
  split
  · exact answersMarked_handOut hm scope (q := .free argument)
      (fun _ hq => NameRequest.free.inj hq ▸ h) d hd
  · exact answersMarked_pure (.nil hm.ne_nil) d hd

theorem answersMarked_computed (hm : IsMarker w m) (hid : Lacks w site.owner.effect.id)
    (htype : Lacks w site.application.effect.effect.minorType)
    (hscope : ∀ v ∈ scope.values, Marked w m v) {f : Formula}
    (hf : ∀ argument ∈ f.arguments, Lacks w argument) :
    AnswersMarked w m (computed site scope f) := by
  unfold computed
  split
  · exact answersMarked_valueOf hm hid htype hscope f.name
  next argument rest harguments =>
    rw [harguments] at hf
    exact answersMarked_resultOf hm htype (hf argument List.mem_cons_self).trim f.name

theorem mem_addToLast {text : Text} {hs : List Helper} {h : Helper} (hh : h ∈ addToLast text hs) :
    h ∈ hs ∨ ∃ l ∈ hs, h = { l with code := l.code ++ text } := by
  fun_induction addToLast text hs with
  | case1 => cases hh
  | case2 l => exact .inr ⟨l, List.mem_cons_self, List.mem_singleton.mp hh⟩
  | case3 l hs hne ih =>
    rcases List.mem_cons.mp hh with rfl | hrest
    · exact .inl List.mem_cons_self
    · rcases ih hrest with hold | ⟨k, hk, rfl⟩
      · exact .inl (List.mem_cons_of_mem l hold)
      · exact .inr ⟨k, List.mem_cons_of_mem l hk, rfl⟩

/-- What is written goes to the output or to a helper. -/
theorem answersMarked_emit (hm : IsMarker w m) {text : Text} (h : Marked w m text) :
    AnswersMarked w m (emit text) := by
  intro d hd
  rw [run_emit]
  refine ⟨?_, ?_⟩
  · unfold receive
    split
    · refine ⟨hd.marker, hd.elements, hd.imports, fun other hother => ?_⟩
      rcases mem_addToLast hother with hold | ⟨l, hl, rfl⟩
      · exact hd.helpers other hold
      · exact ⟨(hd.helpers l hl).1, (hd.helpers l hl).2.append hm.toIsPiece h⟩
    · exact hd
  · unfold Contribution.answer
    split
    · exact h
    · exact .plain (.nil hm.ne_nil)

theorem AnswersMarked.ensures {x : StateM Document Text} (h : AnswersMarked w m x) :
    Ensures (KeepsOut w m) (liftM x) (Marked w m) := ensures_state h

/-! ## A walk -/

theorem ensures_render_marked (hm : IsMarker w m) {t : MatchTree} {n : NodeId} {a : Application}
    {snippet : Snippet} (htype : Lacks w a.effect.effect.minorType)
    (hsnippet : ∀ node ∈ snippet, ∀ text ∈ node.texts, Lacks w text)
    (hscope : ∀ v ∈ scope.values, Marked w m v) :
    Ensures (KeepsOut w m) (Evaluator.render t n a scope snippet) (Marked w m) := by
  apply ensures_render _ _ (.plain (.nil hm.ne_nil)) (fun _ _ => .append hm.toIsPiece) hscope
  · intro s hs f hpiece scope hscope
    have htexts := hsnippet s hs
    simp only [SnippetNode.texts, hpiece, List.forall_mem_cons] at htexts
    apply ensures_bind (answersMarked_computed hm htexts.1 htype hscope htexts.2).ensures
    exact fun text htext => (answersMarked_emit hm htext).ensures
  · intro s hs text hpiece scope
    have htexts := hsnippet s hs
    simp only [SnippetNode.texts, hpiece, List.forall_mem_cons] at htexts
    exact (answersMarked_emit hm (.plain htexts.2.1)).ensures

end Document

namespace Synthesizer

variable {t : MatchTree} {n : NodeId} {s : Synthesizer Document}

/-- The document keeps the piece out, and so do the snippets that are served. -/
structure KeepsOut (t : MatchTree) (w m : Text) (s : Synthesizer Document) : Prop where
  document : s.evaluator.KeepsOut w m
  snippets : ∀ e, t.Mentions e → ∀ found, s.served e = .ok found →
    ∀ node ∈ found, ∀ text ∈ node.texts, Lacks w text

/-- The snippet of an effect is served from then on, and it was served before. -/
theorem ensures_snippet_avoids {e : SharedEffect} (he : t.Mentions e) :
    Ensures (KeepsOut t w m) (snippet e)
      fun found => ∀ node ∈ found, ∀ text ∈ node.texts, Lacks w text := by
  intro s hs
  unfold final outcome
  rcases hserved : s.served e with err | found
  · rw [run_snippet_of_error hserved]
    exact ⟨hs, fun _ h => nomatch h⟩
  · obtain ⟨cache, hrun, -, hserves⟩ := run_snippet_of_ok hserved
    rw [hrun]
    refine ⟨⟨hs.document, fun f hf other hother => ?_⟩, fun _ h => ?_⟩
    · rw [hserves] at hother
      split at hother
      · cases hother
        exact hs.snippets e he found hserved
      · exact hs.snippets f hf other hother
    · cases h
      exact hs.snippets e he found hserved

/-- An evaluation gives a text with whole markers, and asks for imports without the piece. -/
theorem evaluate_marked (hm : IsMarker w s.evaluator.config.cursorMarker)
    (havoids : s.Avoids t n w) :
    let x : Session (Synthesizer Document) Text := Environment.evaluate t n false
    (final x s).KeepsOut t w s.evaluator.config.cursorMarker ∧
      ∀ result, outcome x s = .ok result → Marked w s.evaluator.config.cursorMarker result := by
  intro x
  generalize hmarker : s.evaluator.config.cursorMarker = m at hm
  apply evaluate_ensures
  · intro n values hvalues
    apply ensures_evaluateEffect hvalues
    · exact fun a happlies => ensures_snippet_avoids ⟨n, a, happlies, rfl⟩
    · intro a happlies found scope hfound hscope
      have htype := havoids.minorTypes a.effect ⟨n, a, happlies, rfl⟩
      apply ensures_onEvaluator (I := Document.KeepsOut w m)
      · exact Document.ensures_render_marked hm htype hfound hscope
      · exact fun _ hs => hs.document
      · exact fun _ _ hs he => ⟨he, hs.snippets⟩
    · exact fun _ htext => (htext.trim hm.toIsPiece hm.isTight).1
  · exact fun shape hshape na hna => .plain (havoids.arguments shape hshape na hna)
  · exact ⟨⟨hmarker, havoids.elements, fun _ h => (nomatch h), fun _ h => nomatch h⟩,
      havoids.snippets⟩

end Synthesizer

end SnippetEngine
