-- Sections behind a text. Blank lines keep them apart from the text and from one another, so
-- questions to lines are answered in the text or in one of the sections, and a text without a line
-- end stands in one of them.
import SnippetEngine.Document.Placement
import SnippetEngine.Proofs.Code.Lines
import SnippetEngine.Proofs.Text.Occurrences

namespace SnippetEngine.Document

open Text Code

/-- A question that can be asked of the parts of a text between blank lines. -/
structure IsApart (q : Text → Prop) : Prop where
  nil : ¬ q []
  newline : ∀ t, q (t ++ ['\n']) ↔ q t
  blankLine : ∀ s t, q (s ++ '\n' :: '\n' :: t) ↔ q s ∨ q t

theorem isApart_someLine {p : Text → Text → Bool} (hp : IsLocal p) :
    IsApart fun t => someLine p t = true := by
  refine ⟨Bool.false_ne_true, fun t => ?_, fun s t => ?_⟩
  · rw [hp.someLine_append_newline]
  · rw [hp.someLine_append, Bool.or_eq_true]

theorem isApart_occurs {m : Text} (hm : '\n' ∉ m) (hne : m ≠ []) : IsApart (m <:+: ·) := by
  have hnil : ¬ m <:+: [] := mt List.infix_nil.mp hne
  have hline : ∀ t, m <:+: '\n' :: t ↔ m <:+: t := by
    intro t
    simpa [hnil] using infix_append_cons_iff (s := []) (t := t) hm
  refine ⟨hnil, fun t => ?_, fun s t => ?_⟩
  · simp [infix_append_cons_iff hm, hnil]
  · rw [infix_append_cons_iff hm, hline]

variable {q : Text → Prop} {endsLine : Bool} {text : Text}

/-- The text ends with a line end if the sections behind it are to do so. -/
def EndsAlike (endsLine : Bool) (text : Text) : Prop := endsLine = true → ∃ s, text = s ++ ['\n']

theorem endsAlike_endsWith (text : Text) : EndsAlike (endsWith ['\n'] text) text := by
  intro hends
  obtain ⟨s, hs⟩ := Option.isSome_iff_exists.mp hends
  exact ⟨s, before?_eq_some.mp hs⟩

theorem endsAlike_appendSection (endsLine : Bool) (text part : Text) :
    EndsAlike endsLine (appendSection endsLine text part) := by
  rintro rfl
  exact ⟨_, rfl⟩

theorem IsApart.appendSection (hq : IsApart q) (hends : EndsAlike endsLine text) (part : Text) :
    q (appendSection endsLine text part) ↔ q text ∨ q part := by
  unfold Document.appendSection
  cases endsLine with
  | true =>
    obtain ⟨s, rfl⟩ := hends rfl
    have hcut : s ++ ['\n'] ++ ['\n'] ++ part ++ ['\n'] =
        (s ++ '\n' :: '\n' :: part) ++ ['\n'] := by simp
    rw [if_neg (by simp), if_pos rfl, if_pos rfl, hcut, hq.newline, hq.blankLine, hq.newline]
  | false =>
    by_cases htext : text = []
    · subst htext
      simp [hq.nil]
    · rw [if_neg (by simpa using htext), if_neg (by simp), if_neg (by simp), List.append_nil,
        List.append_assoc]
      exact hq.blankLine text part

theorem IsApart.appendSections (hq : IsApart q) (text : Text) (sections : List Text) :
    q (appendSections text sections) ↔ q text ∨ ∃ part ∈ sections, q part := by
  have hends := endsAlike_endsWith text
  unfold Document.appendSections
  generalize endsWith ['\n'] text = endsLine at hends ⊢
  induction sections generalizing text with
  | nil => simp
  | cons part parts ih =>
    refine (ih _ (endsAlike_appendSection endsLine text part)).trans ?_
    simp only [hq.appendSection hends, or_assoc, List.mem_cons, exists_eq_or_imp]

theorem prefix_appendSections (text : Text) (sections : List Text) :
    text <+: appendSections text sections := by
  unfold Document.appendSections
  generalize endsWith ['\n'] text = endsLine
  induction sections generalizing text with
  | nil => exact List.prefix_refl text
  | cons part parts ih =>
    have hfirst : text <+: appendSection endsLine text part := by
      unfold Document.appendSection
      simp only [List.append_assoc]
      exact List.prefix_append _ _
    exact hfirst.trans (ih _)

theorem someLine_appendSections {p : Text → Text → Bool} (hp : IsLocal p) (text : Text)
    (sections : List Text) :
    someLine p (appendSections text sections) =
      (someLine p text || sections.any (someLine p)) := by
  rw [Bool.eq_iff_iff, Bool.or_eq_true, List.any_eq_true]
  exact (isApart_someLine hp).appendSections text sections

/-- A text without a line end stands in the text or in one of the sections. -/
theorem infix_appendSections {m : Text} (hm : '\n' ∉ m) (hne : m ≠ []) (text : Text)
    (sections : List Text) :
    m <:+: appendSections text sections ↔ m <:+: text ∨ ∃ part ∈ sections, m <:+: part :=
  (isApart_occurs hm hne).appendSections text sections

end SnippetEngine.Document
