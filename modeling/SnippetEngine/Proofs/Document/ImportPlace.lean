-- The place of the imports. A result behind the last import or package line has them at the end of
-- that line, between two lines of the text. A result in front of that line has them right in front
-- of itself, and if it begins within a line, they cut that line in two.
import SnippetEngine.Proofs.Document.Contributions
import SnippetEngine.Proofs.Document.Layout

namespace SnippetEngine

open Session Text Code

/-! ## The end of the last import or package line -/

namespace Text

theorem withoutLineEnd_isPrefix (line : Text) : withoutLineEnd line <+: line := by
  unfold withoutLineEnd
  split
  · exact List.prefix_refl line
  next body hfeed =>
    rcases hreturn : before? ['\r'] body with _ | rest
    · exact ⟨['\n'], (before?_eq_some.mp hfeed).symm⟩
    · rw [before?_eq_some.mp hfeed, before?_eq_some.mp hreturn, List.append_assoc]
      exact List.prefix_append rest _

end Text

namespace Code

variable {code line : Text} {ls ms : List Text}

/-- The line is the last import or package line of the code. -/
structure IsLastHeadLine (code : Text) (ls : List Text) (line : Text) (ms : List Text) : Prop where
  lines : linesWithEnds code = ls ++ line :: ms
  isHead : isHeadLine line = true
  last : ∀ l ∈ ms, isHeadLine l = false

namespace IsLastHeadLine

variable {before after : Text}

theorem importHead_eq (h : IsLastHeadLine code ls line ms) :
    importHead code = ls.flatten ++ line := by
  have hdrop : (linesWithEnds code).reverse.dropWhile (fun l => !isHeadLine l) =
      line :: ls.reverse := by
    rw [h.lines, List.reverse_append, List.reverse_cons, List.append_assoc,
      List.dropWhile_append_of_pos (by simpa using h.last), List.singleton_append,
      List.dropWhile_cons_of_neg (by simp [h.isHead])]
  have hhead : importHead code =
      ((linesWithEnds code).reverse.dropWhile fun l => !isHeadLine l).reverse.flatten := rfl
  rw [hhead, hdrop, List.reverse_cons, List.reverse_reverse, List.flatten_concat]

theorem code_eq (h : IsLastHeadLine code ls line ms) :
    code = ls.flatten ++ (line ++ ms.flatten) := by
  rw [← flatten_linesWithEnds code, h.lines, List.flatten_append, List.flatten_cons]

/-- A beginning of the code that has all of the line is cut where the line ends, with its line end
or with less of it. -/
theorem take_importHead (h : IsLastHeadLine code ls line ms) (hbefore : before <+: code)
    (hbehind : byteSize (ls.flatten ++ withoutLineEnd line) ≤ byteSize before) :
    ls.flatten ++ withoutLineEnd line <+: before.take (importHead code).length ∧
      before.take (importHead code).length <+: ls.flatten ++ line := by
  have hend : ls.flatten ++ withoutLineEnd line <+: ls.flatten ++ line :=
    (List.prefix_append_right_inj _).mpr (withoutLineEnd_isPrefix line)
  have hline : ls.flatten ++ line <+: code :=
    ⟨ms.flatten, by rw [List.append_assoc, ← h.code_eq]⟩
  rw [h.importHead_eq]
  refine ⟨List.prefix_take_iff.mpr ⟨?_, hend.length_le⟩, ?_⟩
  · exact prefix_of_byteSize_le (hend.trans hline) hbefore hbehind
  · exact List.prefix_of_prefix_length_le ((List.take_prefix _ _).trans hbefore) hline
      (List.length_take_le _ _)

/-- A beginning of the code that ends in front of the line has the line behind it. -/
theorem exists_between (h : IsLastHeadLine code ls line ms) (hcode : code = before ++ after)
    (hfront : byteSize before ≤ byteSize ls.flatten) :
    before.length ≤ (importHead code).length ∧ ∃ u, after = u ++ (line ++ ms.flatten) := by
  obtain ⟨u, hu⟩ : before <+: ls.flatten :=
    prefix_of_byteSize_le ⟨after, hcode.symm⟩ ⟨_, h.code_eq.symm⟩ hfront
  refine ⟨?_, u, ?_⟩
  · rw [h.importHead_eq, ← hu]
    simp only [List.length_append]
    omega
  · have hsame := hcode.symm.trans h.code_eq
    rw [← hu, List.append_assoc] at hsame
    exact List.append_cancel_left hsame

end IsLastHeadLine

end Code

/-! ## The parts of a text with a result -/

structure ResultParts where
  /-- What stands in front of the imports. -/
  head : Text
  /-- Line ends in front of the import lines. -/
  gap : Text
  /-- Line ends behind the import lines. -/
  close : Text
  /-- What stands between the imports and the result. -/
  between : Text
  inserted : Text
  /-- What stands behind the selection. -/
  after : Text
  /-- The sections of the helpers. -/
  sections : Text

namespace ResultParts

/-- The text with lines for these imports in it. -/
def text (p : ResultParts) (imports : List Text) : Text :=
  p.head ++ (p.gap ++ imports.flatMap importLine ++ p.close) ++ p.between ++ p.inserted ++
    p.after ++ p.sections

/-- The text is made of these parts. Those that are not written are the base text around the
selection, and the import lines stand on lines of their own. -/
structure AreOf (p : ResultParts) (d : Document) (text : Text) : Prop where
  text : text = p.text d.missingImports
  around : ∃ selected, d.base = p.head ++ p.between ++ (selected ++ p.after) ∧
    byteSize (p.head ++ p.between) = d.selection.start ∧
    byteSize (p.head ++ p.between ++ selected) = d.selection.stop
  whole : IsClosed (p.head ++ p.gap)
  gap : ∀ c ∈ p.gap, c = '\n'
  close : ∀ c ∈ p.close, c = '\n'

theorem AreOf.linesWithEnds_eq {p : ResultParts} {d : Document} {text : Text}
    (h : p.AreOf d text) :
    linesWithEnds text = linesWithEnds (p.head ++ p.gap) ++
      linesWithEnds (d.missingImports.flatMap importLine) ++
      linesWithEnds (p.close ++ p.between ++ p.inserted ++ p.after ++ p.sections) := by
  have hcut : text = (p.head ++ p.gap) ++ (d.missingImports.flatMap importLine ++
      (p.close ++ p.between ++ p.inserted ++ p.after ++ p.sections)) := by
    rw [h.text, ResultParts.text]
    simp only [List.append_assoc]
  rw [hcut, linesWithEnds_around_importLines h.whole]

end ResultParts

namespace Document

variable {d : Document} {before after : Text} {result : Text} {effect : Option Effect}

theorem exists_parts (hmissing : d.missingImports ≠ [])
    (hplace : d.around? = some (before, after)) (result : Text) :
    ∃ p : ResultParts, p.AreOf d (d.insert before after result).text ∧
      p.head = before.take (importHead d.base).length ∧ p.head ++ p.between = before ∧
      p.after = after := by
  obtain ⟨head, between, sections, hhead, rfl, -, hinsert⟩ := exists_insert_eq d before after result
  obtain ⟨gap, close, hblock, hwhole, hgap, hclose⟩ := exists_importBlock hmissing head
    (d.base.drop head.length)
  let inserted := (takeMarkers d.config.cursorMarker (d.placeHelpers (trim result)).snippet).1
  refine ⟨{ head, gap, close, between, inserted, after, sections },
    ⟨?_, around?_eq_some.mp hplace, hwhole, hgap, hclose⟩, hhead, rfl, rfl⟩
  rw [hinsert, hblock]
  rfl

end Document

/-- Where imports are missing, their lines are lines of the text with the result. If the selection
starts behind the last import or package line, they come right behind that line, and the block
begins where the line ends. If the selection stops in front of it, they come where the selection
starts, right in front of the result, and so in front of the last import or package line. -/
theorem imports_follow_the_last_head_line_up_to_the_selection {d : Document} {result : Text}
    {effect : Option Effect} {ls ms : List Text} {line : Text}
    (happlied : outcome (Document.applyResult result effect) d = .ok ())
    (hmissing : d.missingImports ≠ []) (hlast : IsLastHeadLine d.base ls line ms) :
    let text := (final (Document.applyResult result effect) d).text
    ∃ p : ResultParts, p.AreOf d text ∧
      linesWithEnds text = linesWithEnds (p.head ++ p.gap) ++
        linesWithEnds (d.missingImports.flatMap importLine) ++
        linesWithEnds (p.close ++ p.between ++ p.inserted ++ p.after ++ p.sections) ∧
      (byteSize (ls.flatten ++ withoutLineEnd line) ≤ d.selection.start →
        ls.flatten ++ withoutLineEnd line <+: p.head ∧ p.head <+: ls.flatten ++ line) ∧
      (d.selection.stop ≤ byteSize ls.flatten →
        p.between = [] ∧ ∃ u, p.after = u ++ (line ++ ms.flatten)) := by
  obtain ⟨htarget, hplace⟩ := Document.applyResult_eq_ok.mp happlied
  obtain ⟨⟨before, after⟩, hplace⟩ := Option.isSome_iff_exists.mp hplace
  obtain ⟨p, hinsert, hhead, hbefore, hafter⟩ := Document.exists_parts hmissing hplace result
  obtain ⟨selected, hbase, hstart, hstop⟩ := Document.around?_eq_some.mp hplace
  have htext := congrArg Document.text (Document.final_applyResult result htarget hplace)
  intro text
  have hparts : p.AreOf d text := by rwa [show text = _ from htext]
  refine ⟨p, hparts, hparts.linesWithEnds_eq, fun hbehind => ?_, fun hfront => ?_⟩
  · rw [hhead]
    exact hlast.take_importHead ⟨_, hbase.symm⟩ (hstart ▸ hbehind)
  · obtain ⟨hlength, u, hu⟩ := hlast.exists_between
      (hbase.trans (List.append_assoc _ _ _).symm) (hstop ▸ hfront)
    have hshort : before.length ≤ (importHead d.base).length := by
      rw [List.length_append] at hlength
      omega
    rw [List.take_of_length_le hshort] at hhead
    rw [hhead] at hbefore
    exact ⟨by simpa using hbefore, u, hafter.trans hu⟩

/-- Behind a carriage return and a line feed, which stay with their line. -/
theorem imports_behind_an_import :
    let d : Document := {
      base := "import a;\r\nclass A \x7b\x7d\n".toList
      selection := ⟨20, 20⟩
      gathered := { imports := [['b']] } }
    let text := (final (Document.applyResult ['x'] none) d).text
    outcome (Document.applyResult ['x'] none) d = .ok () ∧ d.missingImports ≠ [] ∧
      IsLastHeadLine d.base [] "import a;\r\n".toList ["class A \x7b\x7d\n".toList] ∧
      text = "import a;\r\nimport b;\nclass A \x7bx\x7d\n".toList ∧
      ∃ p : ResultParts, p.AreOf d text ∧ "import a;".toList <+: p.head ∧
        p.head <+: "import a;\r\n".toList := by
  intro d text
  have happlied : outcome (Document.applyResult ['x'] none) d = .ok () := by decide +kernel
  have hmissing : d.missingImports ≠ [] := by decide +kernel
  have hlast : IsLastHeadLine d.base [] "import a;\r\n".toList ["class A \x7b\x7d\n".toList] :=
    ⟨by decide +kernel, by decide +kernel, by decide +kernel⟩
  obtain ⟨p, hparts, -, hbehind, -⟩ :=
    imports_follow_the_last_head_line_up_to_the_selection happlied hmissing hlast
  exact ⟨happlied, hmissing, hlast, by decide +kernel, p, hparts, hbehind (by decide +kernel)⟩

/-- A selection in the line in front of the only import. The new import cuts that line in two, and
it comes in front of the other one. -/
theorem an_import_cuts_a_line_in_two :
    let base := "class A \x7b\x7d\nimport a;\n".toList
    let s : Synthesizer Document := { evaluator := (Document.ofText base {}).select ⟨9, 9⟩ }
    let x : Session (Synthesizer Document) Unit :=
      Environment.apply (.ofCode ['e'] "$\x7bimport(b)\x7dx".toList) 0
    let d := (final x s).evaluator
    outcome x s = .ok () ∧ d.missingImports = [['b']] ∧
      IsLastHeadLine base ["class A \x7b\x7d\n".toList] "import a;\n".toList [] ∧
      d.selection.stop ≤ byteSize "class A \x7b\x7d\n".toList ∧
      lines d.text = ["class A \x7b".toList, "import b;".toList, "x\x7d".toList,
        "import a;".toList] ∧
      "class A \x7b\x7d".toList ∈ lines base ∧ "class A \x7b\x7d".toList ∉ lines d.text := by
  refine ⟨?_, ?_, ⟨?_, ?_, ?_⟩, ?_, ?_, ?_, ?_⟩
  · decide +kernel
  · decide +kernel
  · decide +kernel
  · decide +kernel
  · decide +kernel
  · decide +kernel
  · decide +kernel
  · decide +kernel
  · decide +kernel

end SnippetEngine
