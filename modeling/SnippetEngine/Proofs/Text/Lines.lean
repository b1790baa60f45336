-- The words and the lines of texts that are put together. Words do not see where blanks end, and
-- lines that are trimmed do not see line ends, so a text can be taken apart at any blank, and at any
-- line end.
import Mathlib.Data.List.Induction
import SnippetEngine.Proofs.Text.Cuts

namespace SnippetEngine.Text

/-! ## Words -/

theorem pieces_append {p : Char → Bool} {c : Char} (hc : p c = true) (s t : Text) :
    pieces p (s ++ c :: t) = pieces p s ++ pieces p t := by
  induction s with
  | nil =>
    rw [List.nil_append, pieces_cons, if_pos hc]
    rfl
  | cons d s ih =>
    obtain ⟨q, qs, hq⟩ := List.exists_cons_of_ne_nil (pieces_ne_nil p s)
    rw [List.cons_append, pieces_cons, pieces_cons, ih, hq]
    split
    · rfl
    · rfl

@[simp] theorem words_nil : words [] = [] := rfl

theorem words_append {c : Char} (hc : isBlank c = true) (s t : Text) :
    words (s ++ c :: t) = words s ++ words t := by
  unfold words
  rw [pieces_append hc, List.filter_append]

theorem words_cons_blank {c : Char} (hc : isBlank c = true) (t : Text) :
    words (c :: t) = words t := words_append hc [] t

theorem words_append_blank {c : Char} (hc : isBlank c = true) (t : Text) :
    words (t ++ [c]) = words t := by
  rw [words_append hc, words_nil, List.append_nil]

theorem words_trimStart (t : Text) : words (trimStart t) = words t := by
  unfold trimStart
  induction t with
  | nil => rfl
  | cons c t ih =>
    by_cases hc : isBlank c = true
    · rw [List.dropWhile_cons_of_pos hc, ih, words_cons_blank hc]
    · rw [List.dropWhile_cons_of_neg hc]

theorem trimEnd_append_blank {c : Char} (hc : isBlank c = true) (t : Text) :
    trimEnd (t ++ [c]) = trimEnd t := by
  simp [trimEnd, hc]

theorem words_trimEnd (t : Text) : words (trimEnd t) = words t := by
  induction t using List.reverseRecOn with
  | nil => rfl
  | append_singleton t c ih =>
    by_cases hc : isBlank c = true
    · rw [trimEnd_append_blank hc, ih, words_append_blank hc]
    · simp [trimEnd, hc]

theorem words_trim (t : Text) : words (trim t) = words t := by
  rw [trim, words_trimEnd, words_trimStart]

theorem trim_append_blank {c : Char} (hc : isBlank c = true) (t : Text) :
    trim (t ++ [c]) = trim t := by
  unfold trim trimStart
  rw [List.dropWhile_append]
  split
  next h =>
    rw [List.dropWhile_cons_of_pos hc]
    rw [List.isEmpty_iff.mp h]
    rfl
  next => exact trimEnd_append_blank hc _

theorem not_isBlank_of_mem_getLast?_trim {t : Text} {c : Char} (h : c ∈ (trim t).getLast?) :
    isBlank c = false := by
  unfold trim trimEnd at h
  rw [List.getLast?_reverse] at h
  have hhead := List.head?_dropWhile_not isBlank (trimStart t).reverse
  rw [Option.mem_def.mp h] at hhead
  exact hhead

theorem trim_trim (t : Text) : trim (trim t) = trim t := by
  apply trim_eq_self
  refine ⟨fun c hc => ?_, fun c hc => not_isBlank_of_mem_getLast?_trim hc⟩
  have hhead := List.head?_dropWhile_not isBlank t
  rw [← trimStart] at hhead
  unfold trim trimEnd at hc
  rcases hstart : trimStart t with _ | ⟨b, r⟩
  · simp [hstart] at hc
  · rw [hstart, List.head?_cons] at hhead
    have hlast : ((b :: r).reverse.dropWhile isBlank).getLast? = some b := by
      rw [List.reverse_cons, List.dropWhile_append]
      split
      · simp [hhead]
      · simp
    rw [hstart, List.head?_reverse, hlast, Option.mem_some_iff] at hc
    rw [← hc]
    simpa using hhead

/-! ## Lines -/

theorem linesWithEnds_cons (c : Char) (t : Text) :
    linesWithEnds (c :: t) = growLines c (linesWithEnds t) := rfl

theorem growLines_append {ls : List Text} (h : ls ≠ []) (c : Char) (ms : List Text) :
    growLines c (ls ++ ms) = growLines c ls ++ ms := by
  obtain ⟨l, ls, rfl⟩ := List.exists_cons_of_ne_nil h
  simp only [List.cons_append, growLines]
  split
  · rfl
  · rfl

theorem growLines_newline (ls : List Text) : growLines '\n' ls = ['\n'] :: ls := by
  cases ls with
  | nil => rfl
  | cons l ls => rfl

theorem linesWithEnds_ne_nil {t : Text} (h : t ≠ []) : linesWithEnds t ≠ [] := by
  intro hl
  apply h
  rw [← flatten_linesWithEnds t, hl]
  rfl

theorem linesWithEnds_append (s t : Text) :
    linesWithEnds (s ++ '\n' :: t) = linesWithEnds (s ++ ['\n']) ++ linesWithEnds t := by
  induction s with
  | nil =>
    simp only [List.nil_append, linesWithEnds_cons, growLines_newline]
    rfl
  | cons c s ih =>
    rw [List.cons_append, linesWithEnds_cons, ih, growLines_append (linesWithEnds_ne_nil (by simp))]
    rfl

/-- A line end after a text ends the last line, or else it is a line of its own. -/
theorem linesWithEnds_append_newline (t : Text) :
    linesWithEnds (t ++ ['\n']) = linesWithEnds t ++ [['\n']] ∨
      ∃ ls l, linesWithEnds t = ls ++ [l] ∧ linesWithEnds (t ++ ['\n']) = ls ++ [l ++ ['\n']] := by
  induction t with
  | nil => exact .inl rfl
  | cons c t ih =>
    by_cases ht : t = []
    · subst ht
      by_cases hc : c = '\n'
      · subst hc
        exact .inl rfl
      · exact .inr ⟨[], [c], rfl, by simp [linesWithEnds, growLines, hc]⟩
    · have hne := linesWithEnds_ne_nil ht
      rw [List.cons_append, linesWithEnds_cons, linesWithEnds_cons]
      rcases ih with h | ⟨ls, l, h, h'⟩
      · left
        rw [h, growLines_append hne]
      · right
        rw [h, h']
        by_cases hls : ls = []
        · subst hls
          by_cases hc : c = '\n'
          · exact ⟨[['\n']], l, by simp [growLines, hc], by simp [growLines, hc]⟩
          · exact ⟨[], c :: l, by simp [growLines, hc], by simp [growLines, hc]⟩
        · exact ⟨growLines c ls, l, growLines_append hls c _, growLines_append hls c _⟩

theorem linesWithEnds_of_not_mem {l : Text} (h : '\n' ∉ l) :
    linesWithEnds (l ++ ['\n']) = [l ++ ['\n']] := by
  induction l with
  | nil => rfl
  | cons c l ih =>
    rw [List.mem_cons, not_or] at h
    rw [List.cons_append, linesWithEnds_cons, ih h.2]
    simp [growLines, Ne.symm h.1]

theorem trim_withoutLineEnd (line : Text) : trim (withoutLineEnd line) = trim line := by
  unfold withoutLineEnd
  split
  · rfl
  next body hbody =>
    rw [before?_eq_some.mp hbody, trim_append_blank (by decide)]
    rcases hreturn : before? ['\r'] body with _ | rest
    · rfl
    · rw [before?_eq_some.mp hreturn, trim_append_blank (by decide)]
      rfl

/-- The lines, each without the blanks around it. -/
theorem map_trim_lines (t : Text) : (lines t).map trim = (linesWithEnds t).map trim := by
  simp only [lines, List.map_map]
  congr 1
  funext line
  exact trim_withoutLineEnd line

end SnippetEngine.Text
