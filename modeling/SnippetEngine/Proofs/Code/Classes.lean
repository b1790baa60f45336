-- The classes of code that is put together from parts. A word that opens no identifier keeps the
-- classes before and behind it apart, and a blank line keeps marks and classes apart.
import SnippetEngine.Code.Classes
import SnippetEngine.Proofs.Code.Lines

namespace SnippetEngine.Code

open Text

/-! ## Names -/

theorem classNames_trim (code : Text) : classNames (trim code) = classNames code := by
  rw [classNames, words_trim, classNames]

theorem classNamesOf_of_ne {word : Text} (h : word ≠ "class".toList) (rest : List Text) :
    classNamesOf (word :: rest) = classNamesOf rest := by
  cases rest with
  | nil => rfl
  | cons next rest => rw [classNamesOf, if_neg h]

theorem classNamesOf_class (next : Text) (rest : List Text) :
    classNamesOf ("class".toList :: next :: rest) =
      if (next.takeWhile isIdentifierChar).isEmpty then classNamesOf rest
      else next.takeWhile isIdentifierChar :: classNamesOf rest := by
  rw [classNamesOf, if_pos rfl]

/-- A word of other characters is no class name, and not the word `class`. -/
theorem classNamesOf_append {mark : Text} (hclass : mark ≠ "class".toList)
    (hmark : mark.takeWhile isIdentifierChar = []) (ws vs : List Text) :
    classNamesOf (ws ++ mark :: vs) = classNamesOf ws ++ classNamesOf vs := by
  fun_induction classNamesOf ws with
  | case1 next rest name hname ih =>
    rw [List.cons_append, List.cons_append, classNamesOf_class, if_pos hname]
    exact ih
  | case2 next rest name hname ih =>
    rw [List.cons_append, List.cons_append, classNamesOf_class, if_neg hname, ih]
    rfl
  | case3 word next rest hword ih =>
    rw [List.cons_append, classNamesOf_of_ne hword]
    exact ih
  | case4 ws hws =>
    match ws, hws with
    | [], _ => exact classNamesOf_of_ne hclass vs
    | [word], _ =>
      by_cases hword : word = "class".toList
      · rw [hword, List.cons_append, List.nil_append, classNamesOf_class, hmark]
        rfl
      · rw [List.cons_append, List.nil_append, classNamesOf_of_ne hword,
          classNamesOf_of_ne hclass]
        rfl
    | word :: next :: rest, hws => exact absurd rfl (hws word next rest)

/-! ## Marks -/

variable {mark name : Text}

/-- The line declares the class, and the line in front of it is the mark. -/
def marks (mark name front line : Text) : Bool := front == mark && (classNames line).contains name

/-- A blank line is no mark. -/
theorem marks_blank (hmark : mark ≠ []) (line : Text) : marks mark name [] line = false := by
  simp [marks, hmark]

theorem isLocal_marks (hmark : mark ≠ []) : IsLocal (marks mark name) where
  blank front := by simp [marks, classNames, classNamesOf]
  alone front line hline := by
    rw [marks_blank hmark] at hline
    cases hline

theorem hasMarkedClass_eq (hmark : mark ≠ []) (code : Text) :
    hasMarkedClass code mark name = someLine (marks mark name) code := by
  have hpairs : ∀ (front : Text) (ls : List Text),
      anyLine (marks mark name) front ls =
        ((front :: ls).zip ls).any fun pair => marks mark name pair.1 pair.2 := by
    intro front ls
    induction ls generalizing front with
    | nil => rfl
    | cons l ls ih => rw [anyLine, ih, List.zip_cons_cons, List.any_cons]
  unfold someLine
  change ((trimmedLines code).zip (trimmedLines code).tail).any _ = _
  rcases trimmedLines code with _ | ⟨l, ls⟩
  · rfl
  · rw [anyLine, marks_blank hmark, hpairs]
    rfl

/-- Behind a line with the mark, the first line counts, and what is marked there anyway. -/
theorem hasMarkedClass_mark (hmark : mark ≠ []) (htight : trim mark = mark) (hline : '\n' ∉ mark)
    (code : Text) : hasMarkedClass (mark ++ '\n' :: code) mark name =
      ((classNames ((lines code).headD [])).contains name || hasMarkedClass code mark name) := by
  have hlines : trimmedLines (mark ++ '\n' :: code) = mark :: trimmedLines code := by
    rw [trimmedLines_eq, linesWithEnds_append, linesWithEnds_of_not_mem hline, List.map_append,
      List.map_singleton, trim_append_blank (by decide), htight, trimmedLines_eq]
    rfl
  rw [hasMarkedClass_eq hmark, hasMarkedClass_eq hmark, someLine, someLine, hlines, anyLine,
    marks_blank hmark]
  unfold trimmedLines
  rcases lines code with _ | ⟨l, ls⟩
  · rfl
  · rw [List.map_cons, anyLine, anyLine, marks_blank hmark, List.headD_cons]
    simp [marks, classNames_trim]

end SnippetEngine.Code
