-- The import lines of code. Whether code imports a name is a question to its single lines, and the
-- line that is written for a name answers it. The lines up to the last import or package line end
-- with one.
import SnippetEngine.Code.Imports
import SnippetEngine.Proofs.Code.Lines

namespace SnippetEngine.Code

open Text

/-! ## Imported names -/

/-- The line imports the name, whatever stands in front of it. -/
def imports (name _front line : Text) : Bool := importedName? line == some name

theorem importedName?_trim (line : Text) : importedName? (trim line) = importedName? line := by
  unfold importedName?
  rw [trim_trim]

theorem isLocal_imports (name : Text) : IsLocal (imports name) where
  blank _ := rfl
  alone _ _ h := h

theorem hasImport_eq (code name : Text) : hasImport code name = someLine (imports name) code := by
  have hany : ∀ (front : Text) (ls : List Text), anyLine (imports name) front (ls.map trim) =
      ls.any fun l => importedName? l == some name := by
    intro front ls
    induction ls generalizing front with
    | nil => rfl
    | cons l ls ih =>
      rw [List.map_cons, anyLine, ih, List.any_cons, imports, importedName?_trim]
  exact (hany [] (lines code)).symm

/-- The line that imports a name, without its end. -/
def bareImport (name : Text) : Text := ['i', 'm', 'p', 'o', 'r', 't', ' '] ++ (name ++ [';'])

theorem importLine_eq (name : Text) : importLine name = bareImport name ++ ['\n'] := by
  have hword : "import ".toList = ['i', 'm', 'p', 'o', 'r', 't', ' '] := rfl
  unfold importLine bareImport
  rw [hword, List.append_assoc, List.append_assoc, List.append_assoc]
  rfl

theorem isClosed_importLine (name : Text) : IsClosed (importLine name) :=
  importLine_eq name ▸ isClosed_append_newline _

theorem trim_bareImport (name : Text) : trim (bareImport name) = bareImport name := by
  apply trim_eq_self
  refine ⟨fun c hc => ?_, fun c hc => ?_⟩
  · cases hc
    decide
  · rw [bareImport, ← List.append_assoc, List.getLast?_concat] at hc
    cases hc
    decide

theorem importedName?_bareImport (name : Text) :
    importedName? (bareImport name) = some (trim name) := by
  have hafter : after? "import ".toList (bareImport name) = some (name ++ [';']) :=
    after?_eq_some.mpr rfl
  have hbefore : before? [';'] (name ++ [';']) = some name := before?_eq_some.mpr rfl
  unfold importedName?
  rw [trim_bareImport, hafter]
  change (before? [';'] (name ++ [';'])).bind _ = _
  rw [hbefore]
  rfl

theorem linesWithEnds_importLine {name : Text} (h : '\n' ∉ name) :
    linesWithEnds (importLine name) = [importLine name] := by
  rw [importLine_eq, linesWithEnds_of_not_mem (by simp [bareImport, h])]

/-- The line for a trimmed name on one line imports it. -/
theorem hasImport_importLine {name : Text} (htrimmed : trim name = name) (hline : '\n' ∉ name) :
    hasImport (importLine name) name = true := by
  rw [hasImport_eq, someLine, trimmedLines_eq, linesWithEnds_importLine hline, List.map_singleton,
    importLine_eq, trim_append_blank (by decide), trim_bareImport, anyLine, imports,
    importedName?_bareImport, htrimmed]
  simp

/-- Import lines between whole lines and other text. -/
theorem linesWithEnds_around_importLines {front : Text} (h : IsClosed front) (names : List Text)
    (rest : Text) :
    linesWithEnds (front ++ (names.flatMap importLine ++ rest)) =
      linesWithEnds front ++ linesWithEnds (names.flatMap importLine) ++ linesWithEnds rest := by
  rw [linesWithEnds_append_closed h,
    linesWithEnds_append_closed (isClosed_flatMap isClosed_importLine _), List.append_assoc]

theorem hasImport_append {s : Text} (hs : IsClosed s) (t name : Text) :
    hasImport (s ++ t) name = (hasImport s name || hasImport t name) := by
  rw [hasImport_eq, hasImport_eq, hasImport_eq]
  exact (isLocal_imports name).someLine_apart hs (fun _ h => h) t

/-! ## The last import or package line -/

def isHeadLine (line : Text) : Bool := isImportLine line || isPackageLine line

/-- The lines that imports go behind open with a word of their own. -/
theorem words_headLine {line : Text} (h : isHeadLine line = true) :
    ∃ rest, words line = "import".toList :: rest ∨ words line = "package".toList :: rest := by
  have hcut : ∀ word : Text, startsWith (word ++ [' ']) (trimStart line) = true →
      ∃ rest, words line = words word ++ rest := by
    intro word hword
    obtain ⟨rest, hrest⟩ := Option.isSome_iff_exists.mp hword
    refine ⟨words rest, ?_⟩
    rw [← words_trimStart line, after?_eq_some.mp hrest, List.append_assoc, List.singleton_append,
      words_append (by decide)]
  rcases Bool.or_eq_true_iff.mp h with himport | hpackage
  · obtain ⟨rest, hrest⟩ := hcut "import".toList himport
    exact ⟨rest, .inl hrest⟩
  · obtain ⟨rest, hrest⟩ := hcut "package".toList hpackage
    exact ⟨rest, .inr hrest⟩

/-- What stands up to the last import or package line is whole if anything stands behind it, and
ends with that line. -/
theorem importHead_spec (code : Text) : ∃ rest, code = importHead code ++ rest ∧
    (rest ≠ [] → IsClosed (importHead code)) ∧
    (importHead code ≠ [] → isHeadLine (lastLine (importHead code)) = true) := by
  let ls := ((linesWithEnds code).reverse.dropWhile fun line => !isHeadLine line).reverse
  let ms := ((linesWithEnds code).reverse.takeWhile fun line => !isHeadLine line).reverse
  have hls : importHead code = ls.flatten := rfl
  have hlines : linesWithEnds code = ls ++ ms := by
    rw [← List.reverse_append, List.takeWhile_append_dropWhile, List.reverse_reverse]
  obtain ⟨hhead, hclosed⟩ := linesWithEnds_front hlines
  refine ⟨ms.flatten, ?_, fun hrest => ?_, fun hne => ?_⟩
  · rw [hls, ← List.flatten_append, ← hlines, flatten_linesWithEnds]
  · apply hclosed
    rintro hms
    exact hrest (by rw [hms]; rfl)
  · rw [hls, lastLine, hhead]
    have hlast :=
      List.head?_dropWhile_not (fun line => !isHeadLine line) (linesWithEnds code).reverse
    rcases hback : (linesWithEnds code).reverse.dropWhile fun line => !isHeadLine line
      with _ | ⟨l, r⟩
    · exact absurd (by rw [hls]; simp [ls, hback]) hne
    · rw [hback] at hlast
      simpa [ls, hback] using hlast

end SnippetEngine.Code
