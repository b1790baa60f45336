-- The lines of a text with a result in it. Lines of the base text that end in front of the
-- selection, or begin behind the line in which it ends, stay; the import block, the result with the
-- rests of lines around it, and the sections of helpers are written. So a line, or a line with the
-- one in front of it, is there if it stays or is written, and not because it was in the base text.
import SnippetEngine.Proofs.Document.Slices

namespace SnippetEngine

open Text

namespace Document

open Code

/-! ## The import block -/

variable {d : Document}

theorem exists_importBlock (hmissing : d.missingImports ≠ []) (head rest : Text) :
    ∃ gap close, d.importBlock head rest = gap ++ d.missingImports.flatMap importLine ++ close ∧
      IsClosed (head ++ gap) ∧ (∀ c ∈ gap, c = '\n') ∧ ∀ c ∈ close, c = '\n' := by
  have hnonempty : d.missingImports.isEmpty = false := by simpa using hmissing
  have hblank : ∀ (p : Prop) [Decidable p], ∀ c ∈ (if p then ['\n'] else []), c = '\n' := by
    intro p _
    split
    · exact fun c hc => List.mem_singleton.mp hc
    · exact fun c hc => nomatch hc
  refine ⟨_, _, by unfold importBlock; rw [hnonempty]; rfl, ?_,
    List.forall_mem_append.mpr ⟨?_, hblank _⟩, hblank _⟩
  · rw [← List.append_assoc]
    refine IsClosed.append ?_ (isClosed_of_newlines (hblank _))
    split
    next hends =>
      rw [List.append_nil]
      exact isClosed_iff.mpr hends
    next => exact isClosed_append_newline head
  · split
    · exact fun c hc => nomatch hc
    · exact fun c hc => List.mem_singleton.mp hc

theorem isClosed_importBlock (head rest : Text) : IsClosed (d.importBlock head rest) := by
  by_cases hmissing : d.missingImports = []
  · unfold importBlock
    rw [hmissing]
    exact isClosed_nil
  · obtain ⟨gap, close, hblock, -, hgap, hclose⟩ := exists_importBlock hmissing head rest
    rw [hblock]
    exact ((isClosed_of_newlines hgap).append (isClosed_flatMap isClosed_importLine _)).append
      (isClosed_of_newlines hclose)

theorem exists_cut_importBlock {name : Text} (h : name ∈ d.missingImports) (head rest : Text) :
    ∃ u v, d.importBlock head rest = u ++ (importLine name ++ v) ∧ IsClosed (head ++ u) := by
  obtain ⟨gap, close, hblock, hfront, -, -⟩ := exists_importBlock (List.ne_nil_of_mem h) head rest
  obtain ⟨pre, post, hcut⟩ := List.append_of_mem h
  refine ⟨gap ++ pre.flatMap importLine, post.flatMap importLine ++ close, ?_, ?_⟩
  · rw [hblock, hcut, List.flatMap_append, List.flatMap_cons]
    simp only [List.append_assoc]
  · rw [← List.append_assoc]
    exact hfront.append (isClosed_flatMap isClosed_importLine pre)

/-! ## The lines of a text with a result in it -/

structure Layout where
  /-- The lines in front of the import block. -/
  head : Text
  imports : Text
  /-- The lines between the import block and the result. -/
  rest : Text
  /-- The result, and what is left of the lines that it stands in. -/
  seam : Text
  /-- The lines behind the result. -/
  behind : Text

namespace Layout

def text (l : Layout) : Text := l.head ++ l.imports ++ l.rest ++ l.seam ++ l.behind

/-- The parts that are written, each with the whole lines next to it. -/
def written (l : Layout) : List Text :=
  [lastLine l.head ++ l.imports ++ firstLine l.rest,
    lastLine (l.head ++ l.imports ++ l.rest) ++ l.seam ++ firstLine l.behind]

/-- The lines in front and behind are those of the texts around the selection, and the import block
stands behind an import or package line, or else nothing stands between it and the result. -/
structure Fits (l : Layout) (before after : Text) : Prop where
  front : l.head ++ l.rest = wholeLines before
  behind : l.behind = linesBehind after
  head_closed : IsClosed l.head
  imports_closed : IsClosed l.imports
  rest_closed : IsClosed l.rest
  seam_closed : IsClosed l.seam ∨ l.behind = []
  head_ends : l.rest ≠ [] → l.head ≠ [] → isHeadLine (lastLine l.head) = true

variable {l : Layout} {before after : Text}

/-- A question to lines is answered by lines that stay or by lines that are written, if an import or
package line in front of a line does not help. -/
theorem Fits.someLine_text (h : l.Fits before after) {p : Text → Text → Bool} (hp : IsLocal p)
    (hhead : ∀ front, isHeadLine front = true → ∀ line, p (trim front) line = true →
      p [] line = true) :
    someLine p l.text = (someLine p (wholeLines before) || l.written.any (someLine p) ||
      someLine p (linesBehind after)) := by
  have hstays : someLine p (l.head ++ l.rest) = (someLine p l.head || someLine p l.rest) := by
    by_cases hrest : l.rest = []
    · rw [hrest, List.append_nil]
      exact (Bool.or_false _).symm
    · apply hp.someLine_apart h.head_closed
      by_cases hnil : l.head = []
      · rw [hnil]
        exact fun _ hline => hline
      · exact hhead _ (h.head_ends hrest hnil)
  have hfront : IsClosed (l.head ++ l.imports ++ l.rest) :=
    (h.head_closed.append h.imports_closed).append h.rest_closed
  rw [← h.front, ← h.behind, hstays, text, hp.someLine_between hfront h.seam_closed,
    hp.someLine_between h.head_closed (.inl h.imports_closed)]
  simp only [written, List.any_cons, List.any_nil, Bool.or_false]
  ac_rfl

end Layout

def layout (d : Document) (before after inserted : Text) : Layout :=
  let head := before.take (importHead d.base).length
  let imports := d.importBlock head (d.base.drop head.length)
  let behind := linesBehind after
  if IsClosed head then
    { head, imports, behind
      rest := wholeLines (before.drop head.length)
      seam := unfinished before ++ inserted ++ firstLine after }
  else
    { head := wholeLines before, imports := [], rest := [], behind
      seam := unfinished before ++ imports ++ inserted ++ firstLine after }

/-- If anything stands between the place of the imports and the selection, that place is right
behind the last line that imports go behind. -/
theorem head_spec {before after : Text} (h : d.around? = some (before, after)) :
    let head := before.take (importHead d.base).length
    before = head ++ before.drop head.length ∧ (before.drop head.length ≠ [] →
      IsClosed head ∧ (head ≠ [] → isHeadLine (lastLine head) = true)) := by
  intro head
  obtain ⟨selected, hbase, -⟩ := around?_eq_some.mp h
  obtain ⟨behind, hhead, hclosed, hends⟩ := importHead_spec d.base
  refine ⟨(List.prefix_iff_eq_append.mp (List.take_prefix _ before)).symm, fun hrest => ?_⟩
  -- the selection starts behind the last import or package line, so the place is where that ends
  have hshort : (importHead d.base).length < before.length := by
    have := List.length_pos_of_ne_nil hrest
    rw [List.length_drop, List.length_take] at this
    omega
  have heq : head = importHead d.base := by
    obtain ⟨q, hq⟩ := List.prefix_of_prefix_length_le ⟨behind, hhead.symm⟩ ⟨_, hbase.symm⟩
      hshort.le
    exact (congrArg (List.take _) hq.symm).trans List.take_left
  have hbehind : behind ≠ [] := by
    rintro rfl
    have := congrArg List.length (hhead.symm.trans hbase)
    simp only [List.append_nil, List.length_append] at this
    omega
  rw [heq]
  exact ⟨hclosed hbehind, hends⟩

theorem layout_spec {before after : Text} (h : d.around? = some (before, after)) (snippet : Text) :
    let l := d.layout before after (takeMarkers d.config.cursorMarker snippet).1
    l.text = d.spliced before after snippet ∧ l.Fits before after := by
  intro l
  have hseam : ∀ s, IsClosed (s ++ firstLine after) ∨ linesBehind after = [] := by
    intro s
    by_cases hbehind : linesBehind after = []
    · exact .inr hbehind
    · obtain ⟨r, hr⟩ := exists_firstLine hbehind
      exact .inl (.inr ⟨s ++ r, by rw [hr, List.append_assoc]⟩)
  obtain ⟨hcut, hrest⟩ := head_spec h
  have hafter := firstLine_append_linesBehind after
  unfold spliced
  simp only [l, layout]
  generalize before.take (importHead d.base).length = head at *
  generalize (takeMarkers d.config.cursorMarker snippet).1 = inserted
  -- either the block goes between two lines, or the selection cuts the line that it goes behind
  by_cases hclosed : IsClosed head
  · have hwhole : head ++ wholeLines (before.drop head.length) = wholeLines before := by
      rw [← wholeLines_append hclosed, ← hcut]
    have hunfinished : wholeLines (before.drop head.length) ++ unfinished before =
        before.drop head.length := by
      nth_rewrite 2 [hcut]
      rw [unfinished_append hclosed, wholeLines_append_unfinished]
    rw [if_pos hclosed]
    refine ⟨?_, hwhole, rfl, hclosed, isClosed_importBlock _ _, isClosed_wholeLines _,
      hseam _, fun hne => (hrest ?_).2⟩
    · nth_rewrite 3 [← hafter]
      nth_rewrite 2 [← hunfinished]
      simp only [Layout.text, List.append_assoc]
    · intro hnil
      rw [hnil] at hne
      exact hne rfl
  · have hnil : before.drop head.length = [] := by
      by_contra hne
      exact hclosed (hrest hne).1
    rw [hnil, List.append_nil] at hcut
    rw [if_neg hclosed]
    refine ⟨?_, List.append_nil _, rfl, isClosed_wholeLines _, isClosed_nil, isClosed_nil, hseam _,
      fun hne => absurd rfl hne⟩
    have hbefore := wholeLines_append_unfinished before
    nth_rewrite 3 [← hafter]
    rw [hnil, ← hcut]
    nth_rewrite 5 [← hbefore]
    simp only [Layout.text, List.append_assoc, List.append_nil]

/-- A question to the lines of a text with a result and sections in it is answered by the lines that
stay in front and behind, or by one of the parts that are written. -/
theorem someLine_iff {p : Text → Text → Bool} (hp : IsLocal p)
    (hhead : ∀ front, isHeadLine front = true → ∀ line, p (trim front) line = true →
      p [] line = true)
    {before after : Text} (h : d.around? = some (before, after)) (snippet : Text)
    (sections : List Text) :
    let l := d.layout before after (takeMarkers d.config.cursorMarker snippet).1
    someLine p (appendSections (d.spliced before after snippet) sections) = true ↔
      ∃ part ∈ wholeLines before :: linesBehind after :: (l.written ++ sections),
        someLine p part = true := by
  intro l
  obtain ⟨hlayout, hfits⟩ := layout_spec h snippet
  have hswap : ∀ a w b c : Bool, (a || w || b || c) = (a || (b || (w || c))) := by decide
  rw [← hlayout, someLine_appendSections hp, hfits.someLine_text hp hhead, hswap,
    ← List.any_eq_true, List.any_cons, List.any_cons, List.any_append]

end Document

end SnippetEngine
