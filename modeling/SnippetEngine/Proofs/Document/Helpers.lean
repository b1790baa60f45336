-- Helpers that are captured a second time. A helper is recognised in a text if its class is
-- declared in the line right behind its tag line. The section that an application writes has its
-- tag line in front of the first line of the helper's code, so what is recognised later is a class
-- that this first line declares, and no class that a later line declares.
import SnippetEngine.Proofs.Code.Classes
import SnippetEngine.Proofs.Document.Sections
import SnippetEngine.Proofs.Session.Cache
import SnippetEngine.Proofs.Template.RoundTrip

namespace SnippetEngine

open Text

/-! ## One helper -/

namespace Helper

/-- The section of a helper whose class `N` goes under the name `C`. -/
def copy (h : Helper) (N C : Text) : Text := tagLine h.effectId ++ '\n' :: Code.rename N C h.body

/-- True if the base text has a class of that name, tagged with the effect. -/
def isHeld (base effectId name : Text) : Bool :=
  (Code.classNames base).contains name && isTaggedClass base effectId name

/-- From `N` on, candidates that name classes of the base text or are taken lead to one that is
tagged in the base text. -/
def IsRecognisedAmong (base effectId : Text) (taken : List Text) (N : Text) : Prop :=
  ∃ k, 1 ≤ k ∧
    (∀ i, 1 ≤ i → i ≤ k → FreeName.candidate N i ∈ Code.classNames base ++ taken) ∧
    isHeld base effectId (FreeName.candidate N k) = true

theorem className?_eq_none_iff {base effectId N : Text} {taken : List Text} :
    className? base effectId taken N = none ↔ IsRecognisedAmong base effectId taken N :=
  FreeName.search_eq_none (Nat.le_refl 1)

theorem isRecognisedAmong_nil {base effectId N : Text} :
    IsRecognisedAmong base effectId [] N ↔
      ∃ k, 1 ≤ k ∧ (∀ i, 1 ≤ i → i ≤ k → FreeName.candidate N i ∈ Code.classNames base) ∧
        isTaggedClass base effectId (FreeName.candidate N k) = true := by
  unfold IsRecognisedAmong isHeld
  simp only [List.append_nil]
  constructor
  · rintro ⟨k, hk, hused, hheld⟩
    exact ⟨k, hk, hused, (Bool.and_eq_true_iff.mp hheld).2⟩
  · rintro ⟨k, hk, hused, htagged⟩
    refine ⟨k, hk, hused, Bool.and_eq_true_iff.mpr ⟨?_, htagged⟩⟩
    exact List.contains_iff_mem.mpr (hused k hk (Nat.le_refl k))

/-- A helper that declares a class is not blank. -/
theorem isEmpty_body {h : Helper} {N : Text} (hclass : (Code.classNames h.body).head? = some N) :
    h.body.isEmpty = false := by
  cases hb : h.body with
  | nil =>
    rw [hb] at hclass
    cases hclass
  | cons c r => rfl

theorem className?_nil (effectId N : Text) : className? [] effectId [] N = some N := by
  unfold className?
  rw [FreeName.search, dif_neg (by simp [Code.classNames, Code.classNamesOf])]
  rfl

end Helper

/-- A helper that declares a class is placed under the name that is found for it, or skipped. -/
theorem Placement.place_of_class {base : Text} {p : Placement} {h : Helper} {N : Text}
    (hclass : (Code.classNames h.body).head? = some N) :
    p.place base h = (Helper.className? base h.effectId p.taken N).elim p fun C =>
      (p.take N C).append h.effectId (Code.rename N C h.body) := by
  unfold place
  rw [Helper.isEmpty_body hclass, hclass]
  simp only [Bool.false_eq_true, if_false]
  cases Helper.className? base h.effectId p.taken N with
  | none => rfl
  | some C => rfl

namespace Document

/-- The text with a snippet in its place, behind the imports that it asks for. -/
def spliced (d : Document) (before after snippet : Text) : Text :=
  let head := before.take (Code.importHead d.base).length
  head ++ d.importBlock head (d.base.drop head.length) ++ before.drop head.length ++
    (takeMarkers d.config.cursorMarker snippet).1 ++ after

theorem text_insert (d : Document) (before after result : Text) :
    (d.insert before after result).text =
      appendSections (d.spliced before after (d.placeHelpers (trim result)).snippet)
        (d.placeHelpers (trim result)).sections := rfl

theorem cursor_insert (d : Document) (before after result : Text) :
    (d.insert before after result).cursor =
      let head := before.take (Code.importHead d.base).length
      byteSize (d.importBlock head (d.base.drop head.length)) + before.byteSize +
        (takeMarkers d.config.cursorMarker (d.placeHelpers (trim result)).snippet).2 := rfl

/-- The parts that a result is put together from. The text in front of the selection is cut where
the imports go, and the cursor is counted from behind it. -/
theorem exists_insert_eq (d : Document) (before after result : Text) :
    ∃ head between sections, head = before.take (Code.importHead d.base).length ∧
      before = head ++ between ∧ ((d.placeHelpers (trim result)).sections = [] → sections = []) ∧
      let block := d.importBlock head (d.base.drop head.length)
      let marked := takeMarkers d.config.cursorMarker (d.placeHelpers (trim result)).snippet
      d.insert before after result =
        { text := head ++ block ++ between ++ marked.1 ++ after ++ sections
          cursor := byteSize (head ++ block ++ between) + marked.2 } := by
  obtain ⟨sections, hsections⟩ := prefix_appendSections
    (d.spliced before after (d.placeHelpers (trim result)).snippet)
    (d.placeHelpers (trim result)).sections
  obtain ⟨head, hhead⟩ : ∃ head, head = before.take (Code.importHead d.base).length := ⟨_, rfl⟩
  have hbefore : head ++ before.drop head.length = before :=
    List.prefix_iff_eq_append.mp (hhead ▸ List.take_prefix _ before)
  have htext := text_insert d before after result
  have hcursor := cursor_insert d before after result
  have hsize := congrArg byteSize hbefore
  rw [← hsections, spliced] at htext
  simp only [← hhead] at htext hcursor
  rw [byteSize_append] at hsize
  refine ⟨head, before.drop head.length, sections, hhead, hbefore.symm, fun hnone => ?_,
    congrArg₂ Applied.mk htext (hcursor.trans ?_)⟩
  · rw [hnone] at hsections
    exact List.append_right_eq_self.mp hsections
  · rw [byteSize_append, byteSize_append]
    omega

/-- The one helper becomes a section, unless the base text has it already. -/
theorem placeHelpers_singleton {d : Document} {h : Helper} {N : Text}
    (hcaptured : d.gathered.helpers = [h]) (hclass : (Code.classNames h.body).head? = some N)
    (snippet : Text) : d.placeHelpers snippet =
      (Helper.className? d.base h.effectId [] N).elim { snippet } fun C =>
        { snippet := Code.rename N C snippet, taken := [C], sections := [h.copy N C] } := by
  unfold placeHelpers
  rw [hcaptured, List.foldl_cons, List.foldl_nil, Placement.place_of_class hclass]
  cases Helper.className? d.base h.effectId [] N with
  | none => rfl
  | some C => rfl

end Document

/-! ## A section behind a text -/

namespace Helper

/-- The id can be read back from its tag line. -/
structure IsReadable (effectId : Text) : Prop where
  ne_nil : effectId ≠ []
  isTrimmed : trim effectId = effectId
  isOneLine : '\n' ∉ effectId

theorem tagLine_eq (effectId : Text) : tagLine effectId =
    ['/', '/', ' ', 'S', 'n', 'i', 'p', 'p', 'e', 't', ' ', 'I', 'D', ':'] ++ ' ' :: effectId := rfl

theorem tagLine_ne_nil (effectId : Text) : tagLine effectId ≠ [] := by
  rw [tagLine_eq]
  exact List.cons_ne_nil _ _

theorem IsReadable.trim_tagLine {effectId : Text} (h : IsReadable effectId) :
    trim (tagLine effectId) = tagLine effectId := by
  apply trim_eq_self
  rw [tagLine_eq]
  refine ⟨fun c hc => ?_, fun c hc => ?_⟩
  · cases hc
    decide
  · obtain ⟨r, l, hid⟩ := (List.eq_nil_or_concat effectId).resolve_left h.ne_nil
    rw [hid, List.concat_eq_append, ← List.cons_append, ← List.append_assoc,
      List.getLast?_concat] at hc
    apply not_isBlank_of_mem_getLast?_trim (t := effectId)
    rw [h.isTrimmed, hid, List.concat_eq_append, List.getLast?_concat]
    exact hc

theorem IsReadable.not_mem_tagLine {effectId : Text} (h : IsReadable effectId) :
    '\n' ∉ tagLine effectId := by
  rw [tagLine_eq]
  simp [h.isOneLine]

theorem words_tagLine (effectId : Text) :
    words (tagLine effectId) =
      "//".toList :: "Snippet".toList :: "ID:".toList :: words effectId := by
  rw [tagLine_eq, words_append (by decide)]
  rfl

/-- A section stands behind a text after a blank line, and the line end of the text, if there is
one, goes behind the section. -/
theorem appendSections_singleton {body : Text} (h : body ≠ []) (part : Text) :
    ∃ s tail, body = s ++ tail ∧ (tail = [] ∨ tail = ['\n']) ∧
      Document.appendSections body [part] = s ++ '\n' :: '\n' :: (part ++ tail) := by
  have hempty : body.isEmpty = false := by simpa using h
  unfold Document.appendSections Document.appendSection
  rw [List.foldl_cons, List.foldl_nil, hempty]
  unfold endsWith
  rcases hend : before? ['\n'] body with _ | s
  · exact ⟨body, [], by simp, .inl rfl, by simp⟩
  · refine ⟨s, ['\n'], before?_eq_some.mp hend, .inr rfl, ?_⟩
    rw [before?_eq_some.mp hend]
    simp

theorem appendSections_nil (part : Text) : Document.appendSections [] [part] = part := by
  simp [Document.appendSections, Document.appendSection, endsWith, before?, after?]

/-- What is marked in a text with a section behind it. -/
theorem hasMarkedClass_appendSections {mark : Text} (htight : trim mark = mark)
    (hline : '\n' ∉ mark) (hmark : mark ≠ []) (body code name : Text) :
    Code.hasMarkedClass (Document.appendSections body [mark ++ '\n' :: code]) mark name =
      (Code.hasMarkedClass body mark name ||
        ((Code.classNames ((lines code).headD [])).contains name ||
          Code.hasMarkedClass code mark name)) := by
  rw [← Code.hasMarkedClass_mark hmark htight hline, Code.hasMarkedClass_eq hmark,
    Document.someLine_appendSections (Code.isLocal_marks hmark), List.any_cons, List.any_nil,
    Bool.or_false, ← Code.hasMarkedClass_eq hmark, ← Code.hasMarkedClass_eq hmark]

/-- The classes of a text with a section behind it. The tag line keeps the text and the section
apart, but the words of the id run into the code. -/
theorem classNames_appendSections (body effectId code : Text) :
    Code.classNames (Document.appendSections body [tagLine effectId ++ '\n' :: code]) =
      Code.classNames body ++ Code.classNamesOf (words effectId ++ words code) := by
  have hpart : words (tagLine effectId ++ '\n' :: code) =
      "//".toList :: "Snippet".toList :: "ID:".toList :: (words effectId ++ words code) := by
    rw [words_append (by decide), words_tagLine]
    rfl
  have hcut : ∀ ws, Code.classNamesOf (ws ++ words (tagLine effectId ++ '\n' :: code)) =
      Code.classNamesOf ws ++ Code.classNamesOf (words effectId ++ words code) := by
    intro ws
    rw [hpart, Code.classNamesOf_append (by decide) (by decide), Code.classNamesOf_of_ne (by decide),
      Code.classNamesOf_of_ne (by decide)]
  unfold Code.classNames
  by_cases hbody : body = []
  · rw [hbody, appendSections_nil]
    exact hcut []
  · obtain ⟨s, tail, rfl, htail, hlayout⟩ :=
      appendSections_singleton hbody (tagLine effectId ++ '\n' :: code)
    rw [hlayout, words_append (by decide), words_cons_blank (by decide)]
    rcases htail with rfl | rfl
    · rw [List.append_nil, List.append_nil, hcut]
    · rw [words_append_blank (by decide), words_append_blank (by decide), hcut]

/-! ## Recognition -/

/-- From `N` on, candidates that are declared in the text or in the section lead to one that is
tagged in the text, declared in the first line of the section's code, or tagged in that code. -/
def IsRecognisedBehind (body effectId code N : Text) : Prop :=
  ∃ k, 1 ≤ k ∧
    (∀ i, 1 ≤ i → i ≤ k → FreeName.candidate N i ∈
      Code.classNames body ++ Code.classNamesOf (words effectId ++ words code)) ∧
    (isTaggedClass body effectId (FreeName.candidate N k) = true ∨
      FreeName.candidate N k ∈ Code.classNames ((lines code).headD []) ∨
      isTaggedClass code effectId (FreeName.candidate N k) = true)

theorem isRecognised_appendSections {effectId : Text} (h : IsReadable effectId)
    (body code N : Text) :
    IsRecognisedAmong (Document.appendSections body [tagLine effectId ++ '\n' :: code])
        effectId [] N ↔ IsRecognisedBehind body effectId code N := by
  rw [isRecognisedAmong_nil, classNames_appendSections]
  unfold IsRecognisedBehind isTaggedClass
  simp only [hasMarkedClass_appendSections h.trim_tagLine h.not_mem_tagLine (tagLine_ne_nil _),
    Bool.or_eq_true, List.contains_iff_mem]

end Helper

/-! ## Applying a match again -/

open Session

/-- A match is applied in the session `s`, and the one helper that it captures is `h`, which
declares the class `N` first. It is then applied in the session `u`, whose document holds the
result of the first application. -/
structure Reapplied (t : MatchTree) (n : NodeId) (s u : Synthesizer Document) (h : Helper)
    (N : Text) : Prop where
  isReadable : Helper.IsReadable h.effectId
  applied : outcome (Environment.apply t n) s = .ok ()
  captured : (final (Environment.apply t n) s).evaluator.gathered.helpers = [h]
  declares : (Code.classNames h.body).head? = some N
  servedAlike : Synthesizer.ServedAlike t s u
  base : u.evaluator.base = (final (Environment.apply t n) s).evaluator.text
  config : u.evaluator.config = s.evaluator.config
  declaredType : ∀ name, u.evaluator.declaredType? name = s.evaluator.declaredType? name
  placed : u.evaluator.around?.isSome

/-- The text of an application that captures one helper. -/
theorem text_of_yields {t : MatchTree} {n : NodeId} {s : Synthesizer Document}
    {result before after : Text} {g : Gathered} (hy : Synthesizer.Yields t n s result g before after)
    {h : Helper} {N : Text} (hcaptured : g.helpers = [h])
    (hclass : (Code.classNames h.body).head? = some N) :
    let d := (final (Environment.apply t n) s).evaluator
    d.text = (Helper.className? s.evaluator.base h.effectId [] N).elim
      (d.spliced before after (trim result)) fun C =>
        Document.appendSections (d.spliced before after (Code.rename N C (trim result)))
          [h.copy N C] := by
  have hspliced : ∀ a snippet,
      Document.spliced (Document.write { s.evaluator with gathered := g } a) before after snippet =
        Document.spliced { s.evaluator with gathered := g } before after snippet := fun _ _ => rfl
  dsimp only
  rw [hy.apply.2]
  change (Document.insert { s.evaluator with gathered := g } before after result).text = _
  rw [Document.text_insert, Document.placeHelpers_singleton hcaptured hclass]
  simp only [hspliced]
  rcases Helper.className? s.evaluator.base h.effectId [] N with _ | C
  · rfl
  · rw [Option.elim_some, Option.elim_some]

/-- The second application succeeds. It adds no copy of the helper if the helper is recognised in
the text of the first application, and else it adds one. A helper that the first application
added is recognised if classes of the text, the id and the code lead to one that was tagged before,
that the first line of the code declares, or that is tagged in the code. -/
theorem second_application_adds_no_copy_iff {t : MatchTree} {n : NodeId}
    {s u : Synthesizer Document} {h : Helper} {N : Text} (hre : Reapplied t n s u h N) :
    let d := (final (Environment.apply t n) s).evaluator
    let e := (final (Environment.apply t n) u).evaluator
    outcome (Environment.apply t n) u = .ok () ∧
    ∃ result before after before' after',
      outcome (Environment.evaluate t n false) u = .ok result ∧
      s.evaluator.around? = some (before, after) ∧ u.evaluator.around? = some (before', after') ∧
      (Helper.IsRecognisedAmong d.text h.effectId [] N →
        e.text = e.spliced before' after' (trim result)) ∧
      (¬ Helper.IsRecognisedAmong d.text h.effectId [] N →
        ∃ C, Helper.className? d.text h.effectId [] N = some C ∧
          e.text = Document.appendSections
            (e.spliced before' after' (Code.rename N C (trim result))) [h.copy N C]) ∧
      ∀ C, Helper.className? s.evaluator.base h.effectId [] N = some C →
        d.text = Document.appendSections
          (d.spliced before after (Code.rename N C (trim result))) [h.copy N C] ∧
        (Helper.IsRecognisedAmong d.text h.effectId [] N ↔
          Helper.IsRecognisedBehind (d.spliced before after (Code.rename N C (trim result)))
            h.effectId (Code.rename N C h.body) N) := by
  obtain ⟨result, g, before, after, hy⟩ := Synthesizer.exists_yields hre.applied
  obtain ⟨⟨before', after'⟩, hplace⟩ := Option.isSome_iff_exists.mp hre.placed
  have hscene : Document.SameScene s.evaluator u.evaluator :=
    ⟨congrArg (·.cursorMarker) hre.config.symm, fun name => (hre.declaredType name).symm⟩
  have hy' := hy.of_servedAlike hre.servedAlike hscene hplace
  have hcaptured : g.helpers = [h] := by
    have := hre.captured
    rw [hy.apply.2] at this
    exact this
  have htext := text_of_yields hy hcaptured hre.declares
  have htext' := text_of_yields hy' hcaptured hre.declares
  have hbase := hre.base
  dsimp only at htext htext' ⊢
  generalize (final (Environment.apply t n) s).evaluator = d at *
  generalize (final (Environment.apply t n) u).evaluator = e at *
  rw [hbase] at htext'
  refine ⟨hy'.apply.1, result, before, after, before', after', hy'.value, hy.place, hplace,
    fun hr => ?_, fun hr => ?_, fun C hC => ?_⟩
  · rw [Helper.className?_eq_none_iff.mpr hr, Option.elim_none] at htext'
    exact htext'
  · obtain ⟨C, hC⟩ := Option.ne_none_iff_exists'.mp (mt Helper.className?_eq_none_iff.mp hr)
    rw [hC, Option.elim_some] at htext'
    exact ⟨C, hC, htext'⟩
  · rw [hC, Option.elim_some] at htext
    refine ⟨htext, ?_⟩
    rw [htext]
    exact Helper.isRecognised_appendSections hre.isReadable _ _ N

/-! ## Helpers with and without an annotation -/

/-- Pieces that open a helper with the code `code`, and make `new Foo()`. -/
def fooPieces (code : Text) : List Piece :=
  [.formula ⟨"helper".toList, [], none⟩, .text code, .formula ⟨"endHelper".toList, [], none⟩,
    .text "new Foo()".toList]

/-- The application of an effect without parameters, whose code is these pieces. -/
def fooApplication (code : Text) : Application where
  effect := ⟨0, { id := ['e'], code := Snippet.print (fooPieces code) }⟩
  pattern := []
  children := []
  ghost := 1

def fooTree (code : Text) : MatchTree where
  nodes := #[{ kind := .application (fooApplication code) },
    { parent := some 0, kind := .argument {} }]

/-- A new session with a text and the selection at its start. -/
def fooSession (text : Text) : Synthesizer Document where
  evaluator := (Document.ofText text {}).select ⟨0, 0⟩

theorem compile_foo {code : Text} (h : code ≠ []) :
    Snippet.compile (fooApplication code).effect =
      .ok ((fooPieces code).map (SnippetNode.mk (fooApplication code).effect)) := by
  apply Snippet.compile_eq_ok.mpr
  refine ⟨_, Snippet.piecesOf_print _ ?_, rfl⟩
  refine .inr ⟨by simp [fooPieces], fun p hp => ?_, by simp [fooPieces, Piece.isText]⟩
  simp only [fooPieces, List.mem_cons, List.not_mem_nil, or_false] at hp
  rcases hp with rfl | rfl | rfl | rfl
  · exact ⟨by decide, by simp, by simp, by simp⟩
  · exact h
  · exact ⟨by decide, by simp, by simp, by simp⟩
  · simp [Piece.IsCanonical]

theorem run_render_foo (code : Text) (t : MatchTree) (n : NodeId) (a : Application)
    (e : SharedEffect) (d : Document) (h : d.gathered = {}) :
    (Evaluator.render t n a [] ((fooPieces code).map (SnippetNode.mk e))).run.run d =
      (.ok "new Foo()".toList,
        { d with gathered := { helpers := [⟨e.effect.id, code⟩] } }) := by
  have hopen : ∀ site : Site, Document.valueOf site [] "helper".toList =
      (do modify (Document.openHelper site.owner.effect.id); return []) := by
    intro site
    simp [Document.valueOf, Bindings.value?]
  rcases d with ⟨base, config, selection, declared, gathered, text, cursor, isClean⟩
  cases h
  simp only [fooPieces, List.map_cons, List.map_nil, Evaluator.render, Evaluator.evaluatePiece,
    Evaluator.evaluateFormula, Document.evaluateFormula, Document.computed, hopen]
  rfl

theorem run_evaluate_foo {code : Text} (h : code ≠ []) (text : Text) :
    ∃ cache, (Environment.evaluate (fooTree code) 0 false).run.run (fooSession text) =
      (.ok "new Foo()".toList,
        { evaluator := { (fooSession text).evaluator with
            gathered := { helpers := [⟨['e'], code⟩] } }
          cache }) := by
  have hshape : (fooTree code).shape 0 = .ok (.application 0 (fooApplication code) []) := by
    unfold MatchTree.shape MatchTree.shape?
    rfl
  have hserved : (fooSession text).served (fooApplication code).effect = .ok _ := compile_foo h
  obtain ⟨cache, hsnippet, _, _⟩ := Synthesizer.run_snippet_of_ok hserved
  have hevaluator := Synthesizer.run_onEvaluator (Evaluator.render (fooTree code) 0
    (fooApplication code) [] ((fooPieces code).map (SnippetNode.mk (fooApplication code).effect)))
    { fooSession text with cache }
  rw [run_render_foo code (fooTree code) 0 _ _ (fooSession text).evaluator rfl] at hevaluator
  refine ⟨cache, ?_⟩
  unfold Environment.evaluate
  rw [hshape]
  change (Synthesizer.snippet (fooApplication code).effect >>= _).run.run (fooSession text) = _
  rw [run_bind_ok _ (congrArg Prod.fst hsnippet)]
  unfold final
  rw [hsnippet]
  refine (run_bind_ok _ (congrArg Prod.fst hevaluator)).trans ?_
  unfold final
  rw [hevaluator]
  rfl

theorem yields_foo {code : Text} (h : code ≠ []) (text : Text) :
    Synthesizer.Yields (fooTree code) 0 (fooSession text) "new Foo()".toList
      { helpers := [⟨['e'], code⟩] } [] text := by
  obtain ⟨cache, hrun⟩ := run_evaluate_foo h text
  refine ⟨congrArg Prod.fst hrun, ?_, ⟨_, rfl, rfl⟩, ?_⟩
  · unfold final
    rw [hrun]
  · have hsplit : text.splitBytes? 0 = some ([], text) := splitBytes?_eq_some.mpr ⟨rfl, rfl⟩
    simp [fooSession, Document.around?, Document.select, Document.ofText, hsplit]

theorem reapplied_foo {code : Text} (h : code ≠ [])
    (hclass : (Code.classNames (Helper.body ⟨['e'], code⟩)).head? = some "Foo".toList) :
    Reapplied (fooTree code) 0 (fooSession [])
      (fooSession (final (Environment.apply (fooTree code) 0) (fooSession [])).evaluator.text)
      ⟨['e'], code⟩ "Foo".toList where
  isReadable := ⟨List.cons_ne_nil _ _, rfl, by simp⟩
  applied := (yields_foo h []).apply.1
  captured := by
    rw [(yields_foo h []).apply.2]
    rfl
  declares := hclass
  servedAlike := fun _ _ => rfl
  base := rfl
  config := rfl
  declaredType := fun _ => rfl
  placed := by
    rw [(yields_foo h _).place]
    rfl

theorem text_foo {code : Text} (h : code ≠ []) {text : Text} {C : Option Text}
    (hclass : (Code.classNames (Helper.body ⟨['e'], code⟩)).head? = some "Foo".toList)
    (hC : Helper.className? text ['e'] [] "Foo".toList = C) :
    (final (Environment.apply (fooTree code) 0) (fooSession text)).evaluator.text =
      C.elim ((fooSession text).evaluator.spliced [] text "new Foo()".toList) fun name =>
        Document.appendSections ((fooSession text).evaluator.spliced [] text
          (Code.rename "Foo".toList name "new Foo()".toList))
          [Helper.copy ⟨['e'], code⟩ "Foo".toList name] := by
  have htext := text_of_yields (yields_foo h text) rfl hclass
  dsimp only at htext
  rw [(yields_foo h text).apply.2] at htext ⊢
  have htrim : trim "new Foo()".toList = "new Foo()".toList := by decide +kernel
  rw [htrim] at htext
  rw [htext]
  change (Helper.className? text ['e'] [] "Foo".toList).elim _ _ = _
  rw [hC]
  cases C with
  | none => rfl
  | some name => rfl

/-- The class of the helper stands in its first line. -/
theorem one_line_helper_is_not_copied :
    let code := "class Foo {}".toList
    let first := (final (Environment.apply (fooTree code) 0) (fooSession [])).evaluator.text
    let second := (final (Environment.apply (fooTree code) 0) (fooSession first)).evaluator.text
    Reapplied (fooTree code) 0 (fooSession []) (fooSession first) ⟨['e'], code⟩ "Foo".toList ∧
      Helper.IsRecognisedAmong first ['e'] [] "Foo".toList ∧
      second = "new Foo()".toList ++ first := by
  intro code first second
  have hne : code ≠ [] := by simp [code]
  have hclass : (Code.classNames (Helper.body ⟨['e'], code⟩)).head? = some "Foo".toList := by
    decide +kernel
  have hre := reapplied_foo hne hclass
  have hfirst : first = "new Foo()\n\n// Snippet ID: e\nclass Foo {}".toList := by
    unfold first
    rw [text_foo hne hclass (Helper.className?_nil _ _)]
    decide +kernel
  have hrec : Helper.IsRecognisedAmong first ['e'] [] "Foo".toList := by
    refine Helper.isRecognisedAmong_nil.mpr ⟨1, Nat.le_refl 1, fun i hi hi' => ?_, ?_⟩
    · rw [Nat.le_antisymm hi' hi, hfirst]
      decide +kernel
    · rw [hfirst]
      decide +kernel
  obtain ⟨-, result, _, _, before, after, hresult, -, hplace, hskip, -, -⟩ :=
    second_application_adds_no_copy_iff hre
  have hvalue := Except.ok.inj (hresult.symm.trans (yields_foo hne first).value)
  cases Option.some.inj (hplace.symm.trans (yields_foo hne first).place)
  refine ⟨hre, hrec, (hskip hrec).trans ?_⟩
  rw [hvalue, (yields_foo hne first).apply.2, hfirst]
  decide +kernel

/-- The class of the helper stands in the line behind an annotation, and is added once more. -/
theorem annotated_helper_is_copied :
    let code := "@Deprecated\nclass Foo {}".toList
    let first := (final (Environment.apply (fooTree code) 0) (fooSession [])).evaluator.text
    let second := (final (Environment.apply (fooTree code) 0) (fooSession first)).evaluator.text
    Reapplied (fooTree code) 0 (fooSession []) (fooSession first) ⟨['e'], code⟩ "Foo".toList ∧
      first = "new Foo()\n\n// Snippet ID: e\n@Deprecated\nclass Foo {}".toList ∧
      second = "new Foo2()".toList ++ first ++
        "\n\n// Snippet ID: e\n@Deprecated\nclass Foo2 {}".toList := by
  intro code first second
  have hne : code ≠ [] := by simp [code]
  have hclass : (Code.classNames (Helper.body ⟨['e'], code⟩)).head? = some "Foo".toList := by
    decide +kernel
  have hfirst : first = "new Foo()\n\n// Snippet ID: e\n@Deprecated\nclass Foo {}".toList := by
    unfold first
    rw [text_foo hne hclass (Helper.className?_nil _ _)]
    decide +kernel
  -- `Foo` is in use and not seen to be tagged, `Foo2` is free
  have hname : Helper.className? first ['e'] [] "Foo".toList = some "Foo2".toList := by
    unfold Helper.className?
    rw [hfirst, FreeName.search, dif_pos (by decide +kernel), if_neg (by decide +kernel),
      FreeName.search, dif_neg (by decide +kernel)]
    rfl
  refine ⟨reapplied_foo hne hclass, hfirst, ?_⟩
  unfold second
  rw [text_foo hne hclass hname, hfirst]
  decide +kernel

end SnippetEngine
