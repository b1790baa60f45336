-- Cutting texts and putting them together again: at separators, at the first place of a character,
-- and at the blanks around them.
import SnippetEngine.Text.Blank
import SnippetEngine.Text.Search

namespace SnippetEngine.Text

/-! ## Pieces -/

theorem pieces_eq_splitOnP (p : Char → Bool) (t : Text) : pieces p t = t.splitOnP p := by
  induction t with
  | nil => rfl
  | cons c t ih => rw [pieces_cons, List.splitOnP_cons_eq_if_modifyHead, ih, growFirst]

theorem splitOn_eq (sep : Char) (t : Text) : splitOn sep t = List.splitOn sep t := by
  rw [splitOn, pieces_eq_splitOnP, List.splitOn_eq_splitOnP]

/-- A piece holds characters of the text and no separator. -/
theorem of_mem_pieces {p : Char → Bool} {t piece : Text} (h : piece ∈ pieces p t) {c : Char}
    (hc : c ∈ piece) : c ∈ t ∧ p c = false := by
  induction t generalizing piece with
  | nil =>
    simp only [pieces, List.foldr_nil, List.mem_singleton] at h
    subst h
    cases hc
  | cons d t ih =>
    rw [pieces_cons] at h
    split at h
    next =>
      rcases List.mem_cons.mp h with rfl | h
      · cases hc
      · exact ⟨List.mem_cons_of_mem _ (ih h hc).1, (ih h hc).2⟩
    next hd =>
      obtain ⟨q, qs, hq⟩ := List.exists_cons_of_ne_nil (pieces_ne_nil p t)
      rw [hq, growFirst, List.modifyHead_cons] at h
      rcases List.mem_cons.mp h with rfl | h
      · rcases List.mem_cons.mp hc with rfl | hc
        · exact ⟨List.mem_cons_self, by simpa using hd⟩
        · have := ih (by rw [hq]; exact List.mem_cons_self) hc
          exact ⟨List.mem_cons_of_mem _ this.1, this.2⟩
      · have := ih (by rw [hq]; exact List.mem_cons_of_mem _ h) hc
        exact ⟨List.mem_cons_of_mem _ this.1, this.2⟩

theorem splitOn_intercalate {sep : Char} {ts : List Text} (h : ∀ t ∈ ts, sep ∉ t)
    (hne : ts ≠ []) : splitOn sep ([sep].intercalate ts) = ts := by
  rw [splitOn_eq]
  exact List.splitOn_intercalate sep h hne

/-! ## The first place of a character -/

variable {c : Char} {t before : Text}

theorem forall_ne_of_not_mem (h : c ∉ t) : ∀ d ∈ t, (d != c) = true := by
  intro d hd
  simpa using fun he : d = c => h (he ▸ hd)

theorem takeWhile_of_not_mem (h : c ∉ t) : t.takeWhile (· != c) = t := by
  have happend : (t ++ []).takeWhile (· != c) = t ++ [].takeWhile (· != c) :=
    List.takeWhile_append_of_pos (forall_ne_of_not_mem h)
  simpa using happend

theorem dropWhile_of_not_mem (h : c ∉ t) : t.dropWhile (· != c) = [] := by
  have happend : (t ++ []).dropWhile (· != c) = [].dropWhile (· != c) :=
    List.dropWhile_append_of_pos (forall_ne_of_not_mem h)
  simpa using happend

theorem takeWhile_append_cons (h : c ∉ before) (after : Text) :
    (before ++ c :: after).takeWhile (· != c) = before := by
  rw [List.takeWhile_append_of_pos (forall_ne_of_not_mem h)]
  simp

theorem dropWhile_append_cons (h : c ∉ before) (after : Text) :
    (before ++ c :: after).dropWhile (· != c) = c :: after := by
  rw [List.dropWhile_append_of_pos (forall_ne_of_not_mem h)]
  simp

theorem takeWhile_append_tail_dropWhile (h : c ∈ t) :
    t.takeWhile (· != c) ++ c :: (t.dropWhile (· != c)).tail = t := by
  obtain ⟨before, after, rfl, hbefore⟩ := List.eq_append_cons_of_mem h
  rw [takeWhile_append_cons hbefore, dropWhile_append_cons hbefore, List.tail_cons]

theorem not_mem_takeWhile : c ∉ t.takeWhile (· != c) := by
  intro h
  simpa using List.all_eq_true.mp List.all_takeWhile c h

/-- A character that the head lacks stands behind whatever follows the head. -/
theorem mem_of_append_cons_eq {d : Char} {head tail after : Text} (h : c ∉ head) (hne : d ≠ c)
    (heq : head ++ d :: tail = before ++ c :: after) : d ∈ before := by
  induction head generalizing before with
  | nil =>
    rcases before with _ | ⟨x, before⟩
    · exact absurd (List.cons.inj heq).1 hne
    · exact (List.cons.inj heq).1 ▸ List.mem_cons_self
  | cons y head ih =>
    rcases before with _ | ⟨x, before⟩
    · exact absurd ((List.cons.inj heq).1 ▸ List.mem_cons_self) h
    · exact List.mem_cons_of_mem _ (ih (fun hm => h (List.mem_cons_of_mem _ hm))
        (List.cons.inj heq).2)

theorem cutAtChar?_append (h : c ∉ before) (after : Text) :
    cutAtChar? c (before ++ c :: after) = some (before, after) := by
  simp only [cutAtChar?, dropWhile_append_cons h, takeWhile_append_cons h]

theorem cutAtChar?_eq_none (h : c ∉ t) : cutAtChar? c t = none := by
  simp only [cutAtChar?, dropWhile_of_not_mem h]

theorem before?_singleton (c : Char) (t : Text) :
    before? [c] t = if t.getLast? = some c then some t.dropLast else none := by
  rcases List.eq_nil_or_concat t with rfl | ⟨r, d, rfl⟩
  · rfl
  · by_cases hd : d = c
    · simp [hd, before?_eq_some]
    · simp [before?, after?, hd, Ne.symm hd]

/-! ## Blanks around a text -/

/-- A text that neither starts nor ends with a blank. -/
def IsTight (t : Text) : Prop :=
  (∀ c ∈ t.head?, isBlank c = false) ∧ ∀ c ∈ t.getLast?, isBlank c = false

instance (t : Text) : Decidable (IsTight t) :=
  decidable_of_iff ((t.head?.all (!isBlank ·) && t.getLast?.all (!isBlank ·)) = true) <| by
    simp [IsTight, Option.all_eq_true]

theorem trim_eq_self {t : Text} (h : IsTight t) : trim t = t := by
  have hstart : trimStart t = t := by
    cases t with
    | nil => rfl
    | cons c r =>
      have hc := h.1 c rfl
      simp [trimStart, hc]
  have hend : trimEnd t = t := by
    rcases List.eq_nil_or_concat t with rfl | ⟨r, c, rfl⟩
    · rfl
    · have hc := h.2 c (by simp)
      simp [trimEnd, hc]
  rw [trim, hstart, hend]

theorem trimStart_append {s t : Text} (hne : t ≠ []) (h : ∀ c ∈ t.head?, isBlank c = false) :
    trimStart (s ++ t) = trimStart s ++ t := by
  unfold trimStart
  rw [List.dropWhile_append]
  split
  next hblank =>
    obtain ⟨c, r, rfl⟩ := List.exists_cons_of_ne_nil hne
    rw [List.isEmpty_iff.mp hblank, List.dropWhile_cons_of_neg (by simp [h c rfl]), List.nil_append]
  next => rfl

theorem trimEnd_append {s t : Text} (hne : s ≠ []) (h : ∀ c ∈ s.getLast?, isBlank c = false) :
    trimEnd (s ++ t) = s ++ trimEnd t := by
  have hstart := @trimStart_append t.reverse s.reverse (by simpa using hne) (by simpa using h)
  rw [← List.reverse_append] at hstart
  have hend : trimEnd (s ++ t) = (trimStart (s ++ t).reverse).reverse := rfl
  rw [hend, hstart, List.reverse_append, List.reverse_reverse]
  rfl

/-- Only the blanks on the far sides of a tight text are trimmed. -/
theorem trim_append {m : Text} (hne : m ≠ []) (h : IsTight m) (x y : Text) :
    trim (x ++ (m ++ y)) = trimStart x ++ (m ++ trimEnd y) := by
  have hhead : ∀ c ∈ (m ++ y).head?, isBlank c = false := by
    obtain ⟨c, r, rfl⟩ := List.exists_cons_of_ne_nil hne
    exact h.1
  have hlast : ∀ c ∈ (trimStart x ++ m).getLast?, isBlank c = false := by
    obtain ⟨r, c, rfl⟩ := (List.eq_nil_or_concat m).resolve_left hne
    simpa using h.2
  rw [trim, trimStart_append (by simp [hne]) hhead, ← List.append_assoc,
    trimEnd_append (by simp [hne]) hlast, List.append_assoc]

theorem trimEnd_append_blanks (t : Text) :
    trimEnd t ++ (t.reverse.takeWhile isBlank).reverse = t := by
  rw [trimEnd, ← List.reverse_append, List.takeWhile_append_dropWhile, List.reverse_reverse]

theorem isInfix_trim (t : Text) : trim t <:+: t := by
  have hend : ∀ s : Text, trimEnd s <:+: s := fun s => ⟨[], _, trimEnd_append_blanks s⟩
  exact (hend _).trans (List.dropWhile_suffix _).isInfix

theorem mem_of_mem_trim {t : Text} {c : Char} (h : c ∈ trim t) : c ∈ t := (isInfix_trim t).subset h

/-- A character that is no blank stays. -/
theorem mem_trim_iff {t : Text} {c : Char} (hc : isBlank c = false) : c ∈ trim t ↔ c ∈ t := by
  have hdrop : ∀ s : Text, c ∈ s → c ∈ s.dropWhile isBlank := by
    intro s hs
    rw [← List.takeWhile_append_dropWhile (p := isBlank) (l := s)] at hs
    refine (List.mem_append.mp hs).resolve_left fun htake => ?_
    rw [List.all_eq_true.mp List.all_takeWhile c htake] at hc
    cases hc
  refine ⟨mem_of_mem_trim, fun h => ?_⟩
  unfold trim trimEnd trimStart
  exact List.mem_reverse.mpr (hdrop _ (List.mem_reverse.mpr (hdrop t h)))

end SnippetEngine.Text
