-- What an application finds to be there already. It looks at the base text, selection included, and
-- the result takes the place of the selection. So what is not added is there afterwards if its
-- lines stay or if what is written has them again, and else it is lost.
import SnippetEngine.Proofs.Document.Layout
import SnippetEngine.Proofs.Document.Naming
import SnippetEngine.Proofs.Document.Requests

namespace SnippetEngine

open Session Text Code

/-- A tag line is no import line and no package line. -/
theorem Helper.trim_headLine_ne {line : Text} (h : isHeadLine line = true) (effectId : Text) :
    trim line ≠ tagLine effectId := by
  intro he
  have hwords := words_trim line
  rw [he, words_tagLine] at hwords
  obtain ⟨rest, hrest | hrest⟩ := words_headLine h
  · rw [hrest] at hwords
    exact absurd (List.cons.inj hwords).1 (by decide)
  · rw [hrest] at hwords
    exact absurd (List.cons.inj hwords).1 (by decide)

namespace Document

variable {d : Document}

theorem hasImport_spliced {name : Text} (h : name ∈ d.missingImports) (htrimmed : trim name = name)
    (hline : '\n' ∉ name) (before after snippet : Text) :
    hasImport (d.spliced before after snippet) name = true := by
  obtain ⟨u, v, hblock, hclosed⟩ := exists_cut_importBlock h
    (before.take (importHead d.base).length)
    (d.base.drop (before.take (importHead d.base).length).length)
  have hcut : ∀ head x y z : Text, head ++ (u ++ (importLine name ++ v)) ++ x ++ y ++ z =
      head ++ u ++ (importLine name ++ (v ++ x ++ y ++ z)) := by simp
  unfold spliced
  dsimp only
  rw [hblock, hcut, hasImport_append hclosed, hasImport_append (isClosed_importLine name),
    hasImport_importLine htrimmed hline]
  simp

end Document

/-- An import that the base text lacks is there afterwards. Any other import is there if and only if
a line that stays or a line that is written imports it. A helper is skipped because its class is
tagged in the base text, and the class is tagged afterwards if and only if both lines stay, or one
of them is written. -/
theorem skipped_is_present_where_it_stays {t : MatchTree} {n : NodeId} {s : Synthesizer Document}
    (happlied : outcome (Environment.apply t n) s = .ok ()) :
    let d := (final (Environment.apply t n) s).evaluator
    let base := s.evaluator.base
    let fs := Helper.fates base [] d.gathered.helpers
    ∃ result before after, outcome (Environment.evaluate t n false) s = .ok result ∧
      s.evaluator.around? = some (before, after) ∧
      let snippet := mapIdentifiers (follow (namings fs)) (trim result)
      let l := d.layout before after (Document.takeMarkers d.config.cursorMarker snippet).1
      let parts := wholeLines before :: linesBehind after :: (l.written ++ sections fs)
      d.text = Document.appendSections l.text (sections fs) ∧ l.Fits before after ∧
      (∀ name ∈ d.gathered.imports, '\n' ∉ name → hasImport base name = false →
        hasImport d.text name = true) ∧
      (∀ name, hasImport d.text name = true ↔ ∃ part ∈ parts, hasImport part name = true) ∧
      ∀ h N C, (h, .skipped N C) ∈ fs → Helper.isTaggedClass base h.effectId C = true ∧
        (Helper.isTaggedClass d.text h.effectId C = true ↔
          ∃ part ∈ parts, Helper.isTaggedClass part h.effectId C = true) := by
  intro d base fs
  obtain ⟨result, g, before, after, hy⟩ := Synthesizer.exists_yields happlied
  have hrun : d = _ := hy.apply.2
  have hbase : d.base = base := congrArg (·.base) hrun
  have hgathered : d.gathered = g := congrArg (·.gathered) hrun
  have hplace : d.around? = some (before, after) := (congrArg (·.around?) hrun).trans hy.place
  refine ⟨result, before, after, hy.value, hy.place, ?_⟩
  intro snippet l parts
  obtain ⟨hlayout, hfits⟩ := Document.layout_spec hplace snippet
  have htext : d.text = Document.appendSections (d.spliced before after snippet) (sections fs) :=
    hy.text
  refine ⟨hlayout ▸ htext, hfits, fun name hname hline hlacks => ?_, fun name => ?_,
    fun h N C hskipped => ⟨Helper.isTaggedClass_of_skipped hskipped, ?_⟩⟩
  · have hmissing : name ∈ d.missingImports := by
      refine List.mem_filter.mpr ⟨hname, ?_⟩
      rw [hbase, hlacks]
      rfl
    have htrimmed : trim name = name := hy.asksTrimmed name (hgathered ▸ hname)
    have hspliced := Document.hasImport_spliced hmissing htrimmed hline before after snippet
    rw [hasImport_eq] at hspliced ⊢
    rw [htext, Document.someLine_appendSections (isLocal_imports name), hspliced, Bool.true_or]
  · rw [htext]
    simp only [hasImport_eq]
    exact Document.someLine_iff (isLocal_imports name) (fun _ _ _ h => h) hplace snippet _
  · rw [htext]
    unfold Helper.isTaggedClass
    have hmark := Helper.tagLine_ne_nil h.effectId
    simp only [hasMarkedClass_eq hmark]
    refine Document.someLine_iff (isLocal_marks hmark) (fun front hfront line hline => ?_) hplace
      snippet _
    have hfirst := (Bool.and_eq_true_iff.mp hline).1
    exact absurd (by simpa using hfirst) (Helper.trim_headLine_ne hfront h.effectId)

/-! ## A selection beside the lines and a selection of the lines -/

def askingCode : Text := "${import(a)}${helper}class Foo {}${endHelper}new Foo()".toList

theorem lines_beside_the_selection_stay :
    let base := "\nimport a;\n// Snippet ID: e\nclass Foo {}".toList
    let h : Helper := ⟨['e'], "class Foo {}".toList⟩
    let x : Session (Synthesizer Document) Unit := Environment.apply (.ofCode ['e'] askingCode) 0
    let d := (final x (fooSession base)).evaluator
    outcome x (fooSession base) = .ok () ∧ d.gathered.imports = [['a']] ∧
      Helper.fates base [] d.gathered.helpers = [(h, .skipped "Foo".toList "Foo".toList)] ∧
      hasImport d.text ['a'] = true ∧ Helper.isTaggedClass d.text ['e'] "Foo".toList = true ∧
      d.text = "new Foo()".toList ++ base := by
  intro base h x d
  have hok : outcome x (fooSession base) = .ok () := by decide +kernel
  have hfates : Helper.fates base [] d.gathered.helpers =
      [(h, .skipped "Foo".toList "Foo".toList)] := by decide +kernel
  obtain ⟨result, before, after, -, hplace, -, -, -, himport, hclass⟩ :=
    skipped_is_present_where_it_stays hok
  have hplace' : (fooSession base).evaluator.around? = some ([], base) := by decide +kernel
  cases Option.some.inj (hplace.symm.trans hplace')
  have hskipped : (h, .skipped "Foo".toList "Foo".toList) ∈
      Helper.fates base [] d.gathered.helpers := by
    rw [hfates]
    exact List.mem_singleton_self _
  obtain ⟨-, hclass⟩ := hclass h _ _ hskipped
  have hbehind : linesBehind base = "import a;\n// Snippet ID: e\nclass Foo {}".toList := by
    decide +kernel
  refine ⟨hok, by decide +kernel, hfates, (himport ['a']).mpr ⟨linesBehind base, ?_, ?_⟩,
    hclass.mpr ⟨linesBehind base, ?_, ?_⟩, by decide +kernel⟩
  · exact List.mem_cons_of_mem _ List.mem_cons_self
  · rw [hbehind]
    decide +kernel
  · exact List.mem_cons_of_mem _ List.mem_cons_self
  · rw [hbehind]
    decide +kernel

/-- The import and the class are found in the text that the result replaces, and are lost. -/
theorem selected_lines_are_lost :
    let base := "import a;\n// Snippet ID: e\nclass Foo {}".toList
    let s : Synthesizer Document := { evaluator := (Document.ofText base {}).select ⟨0, 39⟩ }
    let h : Helper := ⟨['e'], "class Foo {}".toList⟩
    let x : Session (Synthesizer Document) Unit := Environment.apply (.ofCode ['e'] askingCode) 0
    let d := (final x s).evaluator
    outcome x s = .ok () ∧ d.gathered.imports = [['a']] ∧
      Helper.fates base [] d.gathered.helpers = [(h, .skipped "Foo".toList "Foo".toList)] ∧
      d.text = "new Foo()".toList ∧ hasImport d.text ['a'] = false ∧
      Helper.isTaggedClass d.text ['e'] "Foo".toList = false := by
  refine ⟨?_, ?_, ?_, ?_, ?_, ?_⟩
  · decide +kernel
  · decide +kernel
  · decide +kernel
  · decide +kernel
  · decide +kernel
  · decide +kernel

end SnippetEngine
