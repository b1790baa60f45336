-- Questions to code that are answered line by line, with a look at the line in front of each. Such
-- a question can be put to the parts of code instead: a blank line keeps the parts apart, and where
-- parts meet at a line end, the whole lines next to a part belong to its question, too.
import SnippetEngine.Text.Blank
import SnippetEngine.Proofs.Text.Lines

namespace SnippetEngine.Code

open Text

/-! ## The lines of parts -/

/-- The lines of code, each without the blanks around it. -/
def trimmedLines (code : Text) : List Text := (lines code).map trim

theorem trimmedLines_eq (code : Text) : trimmedLines code = (linesWithEnds code).map trim :=
  map_trim_lines code

/-- The text is made of whole lines. -/
def IsClosed (t : Text) : Prop := t = [] ∨ ∃ s, t = s ++ ['\n']

theorem isClosed_nil : IsClosed [] := .inl rfl

theorem isClosed_append_newline (s : Text) : IsClosed (s ++ ['\n']) := .inr ⟨s, rfl⟩

theorem IsClosed.append {s t : Text} (hs : IsClosed s) (ht : IsClosed t) : IsClosed (s ++ t) := by
  rcases ht with rfl | ⟨r, rfl⟩
  · rwa [List.append_nil]
  · rw [← List.append_assoc]
    exact isClosed_append_newline _

theorem linesWithEnds_append_closed {s : Text} (hs : IsClosed s) (t : Text) :
    linesWithEnds (s ++ t) = linesWithEnds s ++ linesWithEnds t := by
  rcases hs with rfl | ⟨r, rfl⟩
  · rfl
  · rw [List.append_assoc, List.singleton_append, linesWithEnds_append]

theorem trimmedLines_append {s : Text} (hs : IsClosed s) (t : Text) :
    trimmedLines (s ++ t) = trimmedLines s ++ trimmedLines t := by
  rw [trimmedLines_eq, trimmedLines_eq, trimmedLines_eq, linesWithEnds_append_closed hs,
    List.map_append]

/-- Line ends are whole lines. -/
theorem isClosed_of_newlines {t : Text} (h : ∀ c ∈ t, c = '\n') : IsClosed t := by
  rcases List.eq_nil_or_concat t with rfl | ⟨r, c, rfl⟩
  · exact isClosed_nil
  · rw [List.concat_eq_append, h c (by simp)]
    exact isClosed_append_newline r

theorem isClosed_flatMap {α : Type} {f : α → Text} (h : ∀ a, IsClosed (f a)) (as : List α) :
    IsClosed (as.flatMap f) := by
  induction as with
  | nil => exact isClosed_nil
  | cons a as ih =>
    rw [List.flatMap_cons]
    exact (h a).append ih

theorem isClosed_iff {t : Text} : IsClosed t ↔ (t.isEmpty || endsWith ['\n'] t) = true := by
  rw [Bool.or_eq_true, List.isEmpty_iff, endsWith, Option.isSome_iff_exists]
  simp only [before?_eq_some, IsClosed]

instance (t : Text) : Decidable (IsClosed t) := decidable_of_iff _ isClosed_iff.symm

/-- The first line, with its line end. -/
def firstLine (t : Text) : Text := (linesWithEnds t).headD []

/-- The text behind the first line. -/
def linesBehind (t : Text) : Text := (linesWithEnds t).tail.flatten

/-- The last line, with its line end. -/
def lastLine (t : Text) : Text := (linesWithEnds t).getLastD []

/-- The text up to its last line end. -/
def wholeLines (t : Text) : Text := (t.reverse.dropWhile (· != '\n')).reverse

/-- The text behind its last line end. -/
def unfinished (t : Text) : Text := (t.reverse.takeWhile (· != '\n')).reverse

theorem firstLine_append_linesBehind (t : Text) : firstLine t ++ linesBehind t = t := by
  nth_rewrite 3 [← flatten_linesWithEnds t]
  unfold firstLine linesBehind
  rcases linesWithEnds t with _ | ⟨l, ls⟩
  · rfl
  · rfl

theorem wholeLines_append_unfinished (t : Text) : wholeLines t ++ unfinished t = t := by
  unfold wholeLines unfinished
  rw [← List.reverse_append, List.takeWhile_append_dropWhile, List.reverse_reverse]

theorem isClosed_wholeLines (t : Text) : IsClosed (wholeLines t) := by
  unfold wholeLines
  have hhead := List.head?_dropWhile_not (· != '\n') t.reverse
  rcases h : t.reverse.dropWhile (· != '\n') with _ | ⟨c, r⟩
  · exact isClosed_nil
  · rw [h] at hhead
    have hc : c = '\n' := by simpa using hhead
    rw [hc, List.reverse_cons]
    exact isClosed_append_newline _

/-- What is behind the last line end does not reach into whole lines. -/
theorem unfinished_append {s : Text} (hs : IsClosed s) (t : Text) :
    unfinished (s ++ t) = unfinished t := by
  unfold unfinished
  rw [List.reverse_append]
  congr 1
  rcases hs with rfl | ⟨r, rfl⟩
  · rw [List.reverse_nil, List.append_nil]
  · rw [List.takeWhile_append, List.reverse_append]
    split
    next hall =>
      rw [(List.takeWhile_prefix (· != '\n')).eq_of_length hall]
      simp
    next => rfl

theorem wholeLines_append {s : Text} (hs : IsClosed s) (t : Text) :
    wholeLines (s ++ t) = s ++ wholeLines t := by
  have hboth : wholeLines (s ++ t) ++ unfinished t = (s ++ wholeLines t) ++ unfinished t := by
    rw [List.append_assoc, wholeLines_append_unfinished, ← unfinished_append hs,
      wholeLines_append_unfinished]
  exact List.append_cancel_right hboth

/-- A line is one line. -/
theorem linesWithEnds_of_mem {t l : Text} (h : l ∈ linesWithEnds t) : linesWithEnds l = [l] := by
  induction t generalizing l with
  | nil => cases h
  | cons c t ih =>
    rw [linesWithEnds_cons] at h
    rcases hls : linesWithEnds t with _ | ⟨m, ms⟩
    · rw [hls, growLines, List.mem_singleton] at h
      rw [h]
      rfl
    · rw [hls] at ih h
      rw [growLines] at h
      split at h
      next =>
        rcases List.mem_cons.mp h with rfl | h
        · rfl
        · exact ih h
      next hc =>
        rcases List.mem_cons.mp h with rfl | h
        · rw [linesWithEnds_cons, ih List.mem_cons_self, growLines, if_neg hc]
        · exact ih (List.mem_cons_of_mem _ h)

/-- The first lines of a text are lines. Those in front of another line are whole. -/
theorem linesWithEnds_front {t : Text} {ls ms : List Text} (h : linesWithEnds t = ls ++ ms) :
    linesWithEnds ls.flatten = ls ∧ (ms ≠ [] → IsClosed ls.flatten) := by
  induction t generalizing ls with
  | nil =>
    obtain ⟨rfl, rfl⟩ := List.append_eq_nil_iff.mp h.symm
    exact ⟨rfl, fun _ => isClosed_nil⟩
  | cons c t ih =>
    rcases ls with _ | ⟨k, ks⟩
    · exact ⟨rfl, fun _ => isClosed_nil⟩
    rw [linesWithEnds_cons, List.cons_append] at h
    rcases hls : linesWithEnds t with _ | ⟨l, ls⟩
    · rw [hls] at h
      obtain ⟨rfl, hrest⟩ := List.cons.inj h
      obtain ⟨rfl, rfl⟩ := List.append_eq_nil_iff.mp hrest.symm
      exact ⟨rfl, fun hms => absurd rfl hms⟩
    · rw [hls, growLines] at h
      split at h
      next hc =>
        obtain ⟨rfl, hrest⟩ := List.cons.inj h
        obtain ⟨hlines, hclosed⟩ := @ih ks (hls.trans hrest)
        rw [List.flatten_cons, List.singleton_append]
        refine ⟨?_, fun hms => ?_⟩
        · rw [linesWithEnds_cons, hlines, hc, growLines_newline]
        · rw [hc]
          exact (isClosed_append_newline []).append (hclosed hms)
      next hc =>
        obtain ⟨rfl, hrest⟩ := List.cons.inj h
        obtain ⟨hlines, hclosed⟩ := @ih (l :: ks) (hls.trans (congrArg _ hrest))
        rw [List.flatten_cons] at hlines hclosed
        rw [List.flatten_cons, List.cons_append]
        refine ⟨?_, fun hms => ?_⟩
        · rw [linesWithEnds_cons, hlines, growLines, if_neg hc]
        · rcases hclosed hms with hnil | ⟨s, hs⟩
          · rw [hnil] at hlines
            cases hlines
          · rw [hs, ← List.cons_append]
            exact isClosed_append_newline _

/-- A line in front of another line has its line end. -/
theorem exists_firstLine {t : Text} (h : linesBehind t ≠ []) : ∃ s, firstLine t = s ++ ['\n'] := by
  unfold linesBehind at h
  unfold firstLine
  rcases hls : linesWithEnds t with _ | ⟨l, ls⟩
  · rw [hls] at h
    exact absurd rfl h
  · obtain ⟨hlines, hclosed⟩ := @linesWithEnds_front t [l] ls hls
    have hne : ls ≠ [] := by
      rintro rfl
      exact h (by rw [hls]; rfl)
    rw [List.flatten_singleton] at hlines hclosed
    refine (hclosed hne).resolve_left ?_
    rintro rfl
    cases hlines

theorem trimmedLines_firstLine (t : Text) :
    trimmedLines (firstLine t) = (trimmedLines t).head?.toList := by
  rw [trimmedLines_eq, trimmedLines_eq, firstLine]
  rcases hls : linesWithEnds t with _ | ⟨l, ls⟩
  · rfl
  · rw [List.headD_cons, linesWithEnds_of_mem (hls ▸ List.mem_cons_self)]
    rfl

theorem trimmedLines_lastLine (t : Text) :
    trimmedLines (lastLine t) = (trimmedLines t).getLast?.toList := by
  rw [trimmedLines_eq, trimmedLines_eq, lastLine]
  rcases List.eq_nil_or_concat (linesWithEnds t) with hls | ⟨ls, l, hls⟩
  · rw [hls]
    rfl
  · have hl : l ∈ linesWithEnds t := by simp [hls]
    rw [hls, List.concat_eq_append, List.getLastD_concat, linesWithEnds_of_mem hl, List.map_append,
      List.map_singleton, List.getLast?_concat]
    rfl

theorem isClosed_lastLine {t : Text} (h : IsClosed t) : IsClosed (lastLine t) := by
  rcases h with rfl | ⟨s, rfl⟩
  · exact isClosed_nil
  · unfold lastLine
    rcases linesWithEnds_append_newline s with hls | ⟨ls, l, -, hls⟩
    · rw [hls, List.getLastD_concat]
      exact isClosed_append_newline []
    · rw [hls, List.getLastD_concat]
      exact isClosed_append_newline l

/-! ## Questions to neighbours -/

/-- The question is answered by some line, given the line in front of it. -/
def anyLine (p : Text → Text → Bool) : (front : Text) → List Text → Bool
  | _, [] => false
  | front, l :: ls => p front l || anyLine p l ls

/-- The question is answered by some line of the code. A blank line is thought in front. -/
def someLine (p : Text → Text → Bool) (code : Text) : Bool := anyLine p [] (trimmedLines code)

/-- No blank line answers the question, and the line in front may only help. -/
structure IsLocal (p : Text → Text → Bool) : Prop where
  blank : ∀ front, p front [] = false
  alone : ∀ front line, p [] line = true → p front line = true

variable {p : Text → Text → Bool}

theorem anyLine_append (front : Text) (ls ms : List Text) :
    anyLine p front (ls ++ ms) = (anyLine p front ls || anyLine p (ls.getLastD front) ms) := by
  induction ls generalizing front with
  | nil => simp [anyLine]
  | cons l ls ih => rw [List.cons_append, anyLine, anyLine, ih, Bool.or_assoc, List.getLastD_cons]

namespace IsLocal

variable (h : IsLocal p)

include h

theorem anyLine_append_blank (front : Text) (ls : List Text) :
    anyLine p front (ls ++ [[]]) = anyLine p front ls := by
  simp [anyLine_append, anyLine, h.blank]

/-- A line end behind code changes nothing. -/
theorem someLine_append_newline (code : Text) :
    someLine p (code ++ ['\n']) = someLine p code := by
  unfold someLine
  rw [trimmedLines_eq, trimmedLines_eq]
  rcases linesWithEnds_append_newline code with hends | ⟨ls, l, hends, hends'⟩
  · rw [hends, List.map_append]
    exact h.anyLine_append_blank _ _
  · rw [hends, hends', List.map_append, List.map_append, List.map_singleton, List.map_singleton,
      trim_append_blank (by decide)]

/-- A blank line keeps code apart. -/
theorem someLine_append (s t : Text) :
    someLine p (s ++ '\n' :: '\n' :: t) = (someLine p s || someLine p t) := by
  have hlines : trimmedLines (s ++ '\n' :: '\n' :: t) =
      trimmedLines (s ++ ['\n']) ++ [] :: trimmedLines t := by
    have hcut : s ++ '\n' :: '\n' :: t = (s ++ ['\n']) ++ ([] ++ ['\n']) ++ t := by simp
    rw [hcut, trimmedLines_append ((isClosed_append_newline s).append (isClosed_append_newline [])),
      trimmedLines_append (isClosed_append_newline s), List.append_assoc]
    rfl
  have hs := h.someLine_append_newline s
  unfold someLine at hs ⊢
  rw [hlines, anyLine_append, hs, anyLine, h.blank, Bool.false_or]

theorem or_alone (front line : Text) : (p front line || p [] line) = p front line :=
  Bool.or_eq_left_iff_imp.mpr (h.alone front line)

/-- Behind a line that does not help, code answers the question by itself. -/
theorem someLine_apart {s : Text} (hs : IsClosed s)
    (hfront : ∀ line, p (trim (lastLine s)) line = true → p [] line = true) (t : Text) :
    someLine p (s ++ t) = (someLine p s || someLine p t) := by
  have hlast : (trimmedLines s).getLastD [] = trim (lastLine s) := by
    rw [trimmedLines_eq, lastLine]
    rcases List.eq_nil_or_concat (linesWithEnds s) with hls | ⟨ls, l, hls⟩
    · rw [hls]
      rfl
    · rw [hls, List.concat_eq_append, List.map_append, List.map_singleton, List.getLastD_concat,
        List.getLastD_concat]
  have hsame : ∀ line, p (trim (lastLine s)) line = p [] line := fun line =>
    Bool.eq_iff_iff.mpr ⟨hfront line, h.alone _ line⟩
  unfold someLine
  rw [trimmedLines_append hs, anyLine_append, hlast]
  rcases trimmedLines t with _ | ⟨l, ls⟩
  · rfl
  · rw [anyLine, anyLine, hsame]

/-- Lines between others answer the question together with their neighbours. -/
theorem anyLine_between (ls ms ns : List Text) :
    anyLine p [] (ls ++ ms ++ ns) = (anyLine p [] ls ||
      anyLine p [] (ls.getLast?.toList ++ ms ++ ns.head?.toList) || anyLine p [] ns) := by
  have hfront : ∀ rest, anyLine p [] (ls ++ rest) =
      (anyLine p [] ls || anyLine p [] (ls.getLast?.toList ++ rest)) := by
    intro rest
    rcases List.eq_nil_or_concat ls with rfl | ⟨ks, l, rfl⟩
    · rfl
    · rw [List.concat_eq_append, List.append_assoc, anyLine_append, anyLine_append [] ks [l],
        List.getLast?_concat, Option.toList_some, List.singleton_append]
      simp only [anyLine, Bool.or_false]
      rw [Bool.or_assoc, ← Bool.or_assoc (p _ l) (p [] l), h.or_alone]
  have hbehind : ∀ front, anyLine p [] (front ++ ns) =
      (anyLine p [] (front ++ ns.head?.toList) || anyLine p [] ns) := by
    intro front
    cases ns with
    | nil => simp [anyLine]
    | cons n ns =>
      rw [List.head?_cons, Option.toList_some, anyLine_append, anyLine_append [] front [n]]
      simp only [anyLine, Bool.or_false]
      rw [Bool.or_assoc, ← Bool.or_assoc (p _ n) (p [] n), h.or_alone]
  rw [List.append_assoc, hfront, ← List.append_assoc, hbehind, Bool.or_assoc]

/-- Code between whole lines answers the question together with its neighbours. -/
theorem someLine_between {s m t : Text} (hs : IsClosed s) (hm : IsClosed m ∨ t = []) :
    someLine p (s ++ m ++ t) =
      (someLine p s || someLine p (lastLine s ++ m ++ firstLine t) || someLine p t) := by
  have hlines : ∀ {s' t' : Text}, IsClosed s' → (t = [] → t' = []) →
      trimmedLines (s' ++ m ++ t') = trimmedLines s' ++ trimmedLines m ++ trimmedLines t' := by
    intro s' t' hs' ht'
    rcases hm with hm | ht
    · rw [trimmedLines_append (hs'.append hm), trimmedLines_append hs']
    · rw [ht' ht, List.append_nil, trimmedLines_append hs']
      exact (List.append_nil _).symm
  unfold someLine
  rw [hlines hs id, hlines (isClosed_lastLine hs) (by rintro rfl; rfl), trimmedLines_lastLine,
    trimmedLines_firstLine]
  exact h.anyLine_between _ _ _

end IsLocal

end SnippetEngine.Code
