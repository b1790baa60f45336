-- Cursor markers in an application. They are removed from the result and from nothing else. If the
-- evaluation left them whole, none is left in the result, and a marker is in the text afterwards
-- just where a helper that is added has captured it.
import SnippetEngine.Proofs.Document.Layout
import SnippetEngine.Proofs.Document.Markers
import SnippetEngine.Proofs.Document.References

namespace SnippetEngine

open Session Text

variable {w m : Text}

/-! ## The text with the result in it -/

namespace Document

variable {d : Document} {before after snippet : Text}

theorem lacks_importLine (hm : IsMarker w m) {name : Text} (h : Lacks w name) :
    Lacks w (Code.importLine name) := by
  unfold Code.importLine
  refine ((hm.lacks_of_isWording (by decide)).append hm.notBlank h).append hm.notBlank ?_
  refine .of_disjoint hm.ne_nil fun d hd hmem => ?_
  rcases List.mem_cons.mp hd with rfl | hd
  · exact hm.notImport hmem
  · cases (hm.notBlank d hmem).symm.trans (congrArg isBlank (List.mem_singleton.mp hd))

theorem lacks_importBlock (hm : IsMarker w m) (himports : ∀ name ∈ d.gathered.imports, Lacks w name)
    (head rest : Text) : Lacks w (d.importBlock head rest) := by
  have hnewlines : ∀ gap : Text, (∀ b ∈ gap, b = '\n') → Lacks w gap := by
    refine fun gap hgap => hm.lacks_of_isWording (List.all_eq_true.mpr fun b hb => ?_)
    rw [hgap b hb]
    decide
  have hlines : ∀ names : List Text, (∀ name ∈ names, Lacks w name) →
      Lacks w (names.flatMap Code.importLine) := by
    intro names hnames
    induction names with
    | nil => exact .nil hm.ne_nil
    | cons name names ih =>
      rw [List.forall_mem_cons] at hnames
      exact (lacks_importLine hm hnames.1).append hm.notBlank (ih hnames.2)
  by_cases hmissing : d.missingImports = []
  · unfold importBlock
    rw [hmissing]
    exact .nil hm.ne_nil
  · obtain ⟨gap, close, hblock, -, hgap, hclose⟩ := exists_importBlock hmissing head rest
    rw [hblock]
    have hmissingLines := hlines d.missingImports fun name hname =>
      himports name (List.mem_filter.mp hname).1
    exact ((hnewlines gap hgap).append hm.notBlank hmissingLines).append hm.notBlank
      (hnewlines close hclose)

/-- Lines between two texts do not run into the second one. -/
theorem not_infix_between (hm : IsMarker w m) {front lines rest : Text}
    (hcut : ¬ w <:+: front ++ rest) (hclosed : Code.IsClosed lines) (hlines : Lacks w lines) :
    ¬ w <:+: front ++ lines ++ rest := by
  have hfront : ¬ w <:+: front := mt (·.trans (List.prefix_append front rest).isInfix) hcut
  have hrest : ¬ w <:+: rest := mt (·.trans (List.suffix_append front rest).isInfix) hcut
  have hnewline : '\n' ∉ w := fun hmem => nomatch hm.notBlank '\n' hmem
  rcases hclosed with rfl | ⟨s, rfl⟩
  · rwa [List.append_nil]
  · have hlast : ¬ w <:+: front ++ s := by
      refine mt (fun h => h.trans ?_)
        (not_infix_append hfront hlines.notInfix (hlines.noStart hm.notBlank))
      rw [← List.append_assoc]
      exact (List.prefix_append (front ++ s) ['\n']).isInfix
    have hcuts : front ++ (s ++ ['\n']) ++ rest = front ++ s ++ '\n' :: rest := by simp
    rw [hcuts, infix_append_cons_iff hnewline]
    exact not_or_intro hlast hrest

/-- Markers that are whole are removed, and none is left or comes from elsewhere. -/
theorem not_infix_spliced (hm : IsMarker w d.config.cursorMarker)
    (hplace : d.around? = some (before, after)) (hbase : ¬ w <:+: d.base)
    (hbehind : NoStart w after) (himports : ∀ name ∈ d.gathered.imports, Lacks w name)
    (hsnippet : Marked w d.config.cursorMarker snippet) :
    ¬ w <:+: d.spliced before after snippet := by
  obtain ⟨selected, hcut, -⟩ := around?_eq_some.mp hplace
  have hbefore : ¬ w <:+: before := mt (·.trans ⟨[], selected ++ after, hcut.symm⟩) hbase
  have hafter : ¬ w <:+: after :=
    mt (·.trans ⟨before ++ selected, [], by rw [hcut]; simp⟩) hbase
  have hresult : Lacks w (takeMarkers d.config.cursorMarker snippet).1 :=
    hsnippet.lacks_replaceAll hm.toIsPiece
  unfold spliced
  refine not_infix_append (not_infix_append ?_ hresult.notInfix (hresult.noStart hm.notBlank))
    hafter hbehind
  apply not_infix_between hm ?_ (isClosed_importBlock _ _) (lacks_importBlock hm himports _ _)
  rwa [← (head_spec hplace).1]

end Document

/-! ## The sections of helpers -/

namespace Helper

theorem marked_body (hm : IsMarker w m) {h : Helper} (hcode : Marked w m h.code) :
    Marked w m h.body ∧ (m <:+: h.body ↔ m <:+: h.code) := by
  obtain ⟨htrimmed, htrim⟩ := hcode.trim hm.toIsPiece hm.isTight
  obtain ⟨hpublic, hleft⟩ := hm.replaceAll (by decide) hm.notPublic htrimmed
  obtain ⟨hprivate, hmid⟩ := hm.replaceAll (by decide) hm.notPrivate hpublic
  exact ⟨hprivate, hmid.trans (hleft.trans htrim)⟩

theorem mem_of_mem_fates {base : Text} {taken : List Text} {hs : List Helper} {h : Helper}
    {f : Fate} (hf : (h, f) ∈ fates base taken hs) : h ∈ hs := by
  induction hs generalizing taken with
  | nil => cases hf
  | cons k hs ih =>
    rcases List.mem_cons.mp hf with hfirst | hrest
    · rw [(Prod.mk.inj hfirst).1]
      exact List.mem_cons_self
    · exact List.mem_cons_of_mem k (ih hrest)

theorem infix_section_iff (hm : IsMarker w m) (hline : '\n' ∉ m) {h : Helper} {f : Fate}
    (hid : Lacks w h.effectId) (hcode : Marked w m h.code)
    (hruns : ∀ l ∈ f.naming?, Code.IsRun l.desired ∧ Code.IsRun l.name)
    (hkept : ∀ l ∈ f.naming?, l.desired ∈ Code.identifiers m → l.name = l.desired) {part : Text}
    (hpart : f.section? h = some part) : m <:+: part ↔ m <:+: h.code := by
  have htag : ¬ m <:+: tagLine h.effectId := by
    have htag := hm.notTag
    unfold tagLine at htag ⊢
    rw [List.append_nil] at htag
    exact mt hm.isInfix.trans (not_infix_append htag hid.notInfix (hid.noStart hm.notBlank))
  obtain ⟨hbody, hoccurs⟩ := marked_body hm hcode
  have hbehind : ∀ code, (m <:+: code ↔ m <:+: h.body) →
      (m <:+: tagLine h.effectId ++ '\n' :: code ↔ m <:+: h.code) := by
    intro code hiff
    rw [infix_append_cons_iff hline, or_iff_right htag, hiff, hoccurs]
  cases f with
  | dropped => cases hpart
  | skipped desired serving => cases hpart
  | added =>
    cases hpart
    exact hbehind h.body Iff.rfl
  | named l =>
    cases hpart
    obtain ⟨hdesired, hname⟩ := hruns l rfl
    have hrenamed : ∀ name, Code.IsRun name → Code.IsRun (l.renamed name) :=
      fun _ => l.isRun_renamed hname
    have hcopy : Code.rename l.desired l.name h.body = Code.mapIdentifiers l.renamed h.body :=
      Code.rename_eq_mapIdentifiers l.name hdesired h.body
    unfold copy
    rw [hcopy]
    refine hbehind _ (hm.mapIdentifiers hrenamed (fun name hidentifier => ?_) hbody).2
    unfold Naming.renamed
    split
    next heq => exact (hkept l rfl (heq ▸ hidentifier)).trans heq.symm
    next => rfl

/-- Some section has a marker if and only if a helper that is added has captured one. -/
theorem infix_sections_iff (hm : IsMarker w m) (hline : '\n' ∉ m) {base : Text} {hs : List Helper}
    (hhelpers : ∀ h ∈ hs, Lacks w h.effectId ∧ Marked w m h.code)
    (hkept : ∀ l ∈ namings (fates base [] hs), l.desired ∈ Code.identifiers m →
      l.name = l.desired) :
    (∃ part ∈ sections (fates base [] hs), m <:+: part) ↔
      ∃ h f, (h, f) ∈ fates base [] hs ∧ (f.section? h).isSome ∧ m <:+: h.code := by
  have hsection : ∀ h f part, (h, f) ∈ fates base [] hs → f.section? h = some part →
      (m <:+: part ↔ m <:+: h.code) := by
    intro h f part hf hpart
    obtain ⟨hid, hcode⟩ := hhelpers h (mem_of_mem_fates hf)
    have hnamings : ∀ l ∈ f.naming?, l ∈ namings (fates base [] hs) := fun l hl =>
      List.mem_flatMap.mpr ⟨(h, f), hf, Option.mem_toList.mpr hl⟩
    exact infix_section_iff hm hline hid hcode
      (fun l hl => areRuns_namings [] hs l (hnamings l hl)) (fun l hl => hkept l (hnamings l hl))
      hpart
  constructor
  · rintro ⟨part, hpart, hoccurs⟩
    obtain ⟨⟨h, f⟩, hf, hmem⟩ := List.mem_flatMap.mp hpart
    have hadded : f.section? h = some part := Option.mem_toList.mp hmem
    exact ⟨h, f, hf, Option.isSome_iff_exists.mpr ⟨part, hadded⟩,
      (hsection h f part hf hadded).mp hoccurs⟩
  · rintro ⟨h, f, hf, hadded, hoccurs⟩
    obtain ⟨part, hpart⟩ := Option.isSome_iff_exists.mp hadded
    exact ⟨part, List.mem_flatMap.mpr ⟨(h, f), hf, Option.mem_toList.mpr hpart⟩,
      (hsection h f part hf hpart).mpr hoccurs⟩

end Helper

/-! ## The markers that an application leaves -/

/-- A marker without a line end is in the text if and only if it is in the part with the result or
in the section of a helper. If a piece of the marker is in no text that the evaluation starts from,
an end of it begins none of them, and no helper renames an identifier of the marker, the piece is
not in the part with the result, and so the marker is in the text if and only if a helper that is
added has captured it. -/
theorem cursor_markers_stay_in_helpers_only {t : MatchTree} {n : NodeId} {s : Synthesizer Document}
    (happlied : outcome (Environment.apply t n) s = .ok ()) :
    let d := (final (Environment.apply t n) s).evaluator
    let m := s.evaluator.config.cursorMarker
    let fs := Helper.fates s.evaluator.base [] d.gathered.helpers
    ∃ result before after, outcome (Environment.evaluate t n false) s = .ok result ∧
      s.evaluator.around? = some (before, after) ∧
      let spliced :=
        d.spliced before after (Code.mapIdentifiers (follow (namings fs)) (trim result))
      d.text = Document.appendSections spliced (sections fs) ∧
      (m ≠ [] → '\n' ∉ m → (m <:+: d.text ↔ m <:+: spliced ∨ ∃ part ∈ sections fs, m <:+: part)) ∧
      ∀ w, IsMarker w m → s.Avoids t n w →
        (∀ l ∈ namings fs, l.desired ∈ Code.identifiers m → l.name = l.desired) →
        ¬ w <:+: spliced ∧ ('\n' ∉ m → (m <:+: d.text ↔
          ∃ h f, (h, f) ∈ fs ∧ (f.section? h).isSome ∧ m <:+: h.code)) := by
  intro d m fs
  obtain ⟨result, g, before, after, hy⟩ := Synthesizer.exists_yields happlied
  have hrun : d = _ := hy.apply.2
  refine ⟨result, before, after, hy.value, hy.place, ?_⟩
  intro spliced
  have htext : d.text = Document.appendSections spliced (sections fs) := hy.text
  have hparts : m ≠ [] → '\n' ∉ m →
      (m <:+: d.text ↔ m <:+: spliced ∨ ∃ part ∈ sections fs, m <:+: part) := by
    intro hne hline
    rw [htext]
    exact Document.infix_appendSections hline hne spliced (sections fs)
  refine ⟨htext, hparts, fun w hm havoids hkept => ?_⟩
  obtain ⟨hend, hvalue⟩ := Synthesizer.evaluate_marked hm havoids
  have hkeeps : d.KeepsOut w m := by
    have hdocument := hend.document
    rw [hy.gathers] at hdocument
    rw [hrun]
    exact ⟨hdocument.marker, hdocument.elements, hdocument.imports, hdocument.helpers⟩
  have hspliced : ¬ w <:+: spliced := by
    have hnew : AreNew (Code.classNames s.evaluator.base ++ []) (namings fs) :=
      Helper.areNew_namings [] d.gathered.helpers
    have hfollow : ∀ name ∈ Code.identifiers m, follow (namings fs) name = name := by
      intro name hname
      exact hnew.follow_eq_self.mpr fun l hl hdesired =>
        (hkept l hl (hdesired ▸ hname)).trans hdesired
    have hmarked : Marked w m (Code.mapIdentifiers (follow (namings fs)) (trim result)) :=
      (hm.mapIdentifiers (fun _ => isRun_follow (Helper.areRuns_namings [] d.gathered.helpers))
        hfollow ((hvalue result hy.value).trim hm.toIsPiece hm.isTight).1).1
    have hmarker := hkeeps.marker
    apply Document.not_infix_spliced
    · rwa [hmarker]
    · exact (congrArg (·.around?) hrun).trans hy.place
    · rw [hrun]
      exact havoids.base
    · exact havoids.behind before after hy.place
    · exact hkeeps.imports
    · rwa [hmarker]
  refine ⟨hspliced, fun hline => (hparts hm.marker_ne_nil hline).trans ?_⟩
  rw [or_iff_right (mt hm.isInfix.trans hspliced)]
  exact Helper.infix_sections_iff hm hline hkeeps.helpers hkept

def markedFoo : MatchTree :=
  .ofNested "${helper}class Foo {}${endHelper}new Foo(${x})${cursor}".toList

/-- Other comments and braces do not hold the piece of the marker, so no marker is left. -/
theorem markers_of_nested_effects_are_removed :
    let base := "/** \x7b@code Foo\x7d */\nclass Foo {}".toList
    let x : Session (Synthesizer Document) Unit := Environment.apply markedFoo 3
    let d := (final x (fooSession base)).evaluator
    let m := (fooSession base).evaluator.config.cursorMarker
    let w := "\x7d*".toList
    outcome x (fooSession base) = .ok () ∧
      outcome (Environment.evaluate markedFoo 3 false) (fooSession base) =
        .ok ("new Foo(new Foo()".toList ++ m ++ ")".toList ++ m) ∧
      IsMarker w m ∧ (fooSession base).Avoids markedFoo 3 w ∧ ¬ m <:+: d.text ∧
      d.text = "new Foo2(new Foo2())".toList ++ base ++
        ("\n\n// Snippet ID: e\nclass Foo2 {}\n\n" ++
          "// Snippet ID: e\nclass Foo3 {}").toList := by
  intro base x d m w
  have hok : outcome x (fooSession base) = .ok () := by decide +kernel
  have hm : IsMarker w m := by
    have hchars : ∀ d ∈ w, isBlank d = false ∧ Code.isIdentifierChar d = false :=
      List.forall_mem_cons.mpr ⟨by decide, List.forall_mem_singleton.mpr (by decide)⟩
    have hpiece : IsPiece w m := ⟨by decide, by decide, fun d hd => (hchars d hd).1, by decide⟩
    have htight : IsTight m := by
      refine ⟨fun c hc => ?_, fun c hc => ?_⟩
      · cases hc
        decide
      · cases hc
        decide
    exact ⟨hpiece, htight, by decide, by decide, by decide +kernel, by decide +kernel,
      fun d hd => (hchars d hd).2, by decide, by decide⟩
  have havoids : (fooSession base).Avoids markedFoo 3 w := by
    have htypes : ∀ e ∈ markedFoo.effects, Lacks w e.effect.minorType := by decide +kernel
    have hserved : ∀ e ∈ markedFoo.effects, ∀ found ∈ ((fooSession base).served e).toOption,
        ∀ node ∈ found, ∀ text ∈ node.texts, Lacks w text := by decide +kernel
    have harguments : ∀ nas ∈ (markedFoo.shape? 3).map (·.arguments),
        ∀ na ∈ nas, Lacks w (na.2.value false) := by decide +kernel
    have hbehind : ∀ cut ∈ (fooSession base).evaluator.around?, NoStart w cut.2 := by
      decide +kernel
    refine ⟨by decide +kernel, fun before after h => hbehind (before, after) h,
      fun _ _ _ h => (nomatch h), fun shape hshape => harguments _ ?_,
      fun e he => htypes e (MatchTree.mem_effects he), fun e he found hfound =>
        hserved e (MatchTree.mem_effects he) found ?_⟩
    · rw [hshape]
      rfl
    · rw [hfound]
      rfl
  have hfates : Helper.fates base [] d.gathered.helpers =
      [(⟨['e'], "class Foo {}".toList⟩, .named ⟨"Foo".toList, "Foo2".toList⟩),
        (⟨['e'], "class Foo {}".toList⟩, .named ⟨"Foo".toList, "Foo3".toList⟩)] := by
    decide +kernel
  obtain ⟨result, before, after, -, -, -, -, hown⟩ := cursor_markers_stay_in_helpers_only hok
  have hfates' : Helper.fates (fooSession base).evaluator.base []
      (final x (fooSession base)).evaluator.gathered.helpers = _ := hfates
  obtain ⟨-, hsections⟩ := hown w hm havoids (by rw [hfates']; decide +kernel)
  refine ⟨hok, by decide +kernel, hm, havoids, ?_, by decide +kernel⟩
  rw [hsections (by decide), hfates']
  rintro ⟨h, f, hf, -, hoccurs⟩
  have hcodes : ∀ hf ∈ Helper.fates base [] d.gathered.helpers, ¬ m <:+: hf.1.code := by
    rw [hfates]
    decide +kernel
  exact hcodes (h, f) (hfates ▸ hf) hoccurs

/-- The one marker goes to the helper, and is left in its section. -/
theorem marker_in_a_helper_is_left :
    let code := "${helper}class Foo \x7b $\x7bcursor\x7d \x7d${endHelper}new Foo()".toList
    let x : Session (Synthesizer Document) Unit := Environment.apply (.ofCode ['e'] code) 0
    let d := (final x blankSession).evaluator
    let m := blankSession.evaluator.config.cursorMarker
    let body := "class Foo \x7b ".toList ++ m ++ " \x7d".toList
    outcome x blankSession = .ok () ∧ m ≠ [] ∧ ¬ m <:+: blankSession.evaluator.base ∧
      outcome (Environment.evaluate (.ofCode ['e'] code) 0 false) blankSession =
        .ok "new Foo()".toList ∧
      d.gathered.helpers = [⟨['e'], body⟩] ∧
      d.text = "new Foo()\n\n// Snippet ID: e\n".toList ++ body ∧ m <:+: d.text := by
  refine ⟨?_, ?_, ?_, ?_, ?_, ?_, ?_⟩
  · decide +kernel
  · decide
  · decide
  · decide +kernel
  · decide +kernel
  · decide +kernel
  · decide +kernel

end SnippetEngine
