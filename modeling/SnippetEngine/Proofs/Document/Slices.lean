-- The places at which a document is cut. The text with a result is put together from slices of the
-- base text that are taken at byte offsets: up to the place of the imports, from there to the
-- selection, and behind the selection. If the selection lies in the base text, characters begin at
-- all of these offsets and they are in order, so each slice exists.
import SnippetEngine.Proofs.Code.Imports
import SnippetEngine.Proofs.Document.Helpers

namespace SnippetEngine

/-! ## Slices -/

namespace Text

/-- The text between two byte offsets. None if they are reversed, or if one of them is the place of
no character and not the end of the text. -/
def slice? (t : Text) (start stop : Nat) : Option Text := do
  if stop < start then none
  let (_, rest) ← t.splitBytes? start
  let (slice, _) ← rest.splitBytes? (stop - start)
  return slice

theorem slice?_append (front slice back : Text) :
    slice? (front ++ (slice ++ back)) front.byteSize (front ++ slice).byteSize = some slice := by
  have hsize : (front ++ slice).byteSize - front.byteSize = slice.byteSize := by
    rw [byteSize_append]
    omega
  have horder : ¬ (front ++ slice).byteSize < front.byteSize := by
    rw [byteSize_append]
    omega
  unfold slice?
  rw [if_neg horder, hsize]
  simp [splitBytes?_eq_some.mpr ⟨rfl, rfl⟩]

theorem byteSize_eq_zero {t : Text} (h : t.byteSize = 0) : t = [] := by
  cases t with
  | nil => rfl
  | cons c r =>
    have := Char.utf8Size_pos c
    rw [byteSize_cons] at h
    omega

/-- Of two beginnings of a text the one with fewer bytes is a beginning of the other. -/
theorem prefix_of_byteSize_le {s u t : Text} (hs : s <+: t) (hu : u <+: t)
    (h : s.byteSize ≤ u.byteSize) : s <+: u := by
  rcases List.prefix_or_prefix_of_prefix hs hu with hsu | ⟨w, rfl⟩
  · exact hsu
  · rw [byteSize_append] at h
    have hw : w = [] := byteSize_eq_zero (by omega)
    simp [hw]

/-- Of two beginnings of a text the one with fewer characters is the one with fewer bytes. -/
theorem byteSize_lt_iff {s u t : Text} (hs : s <+: t) (hu : u <+: t) :
    s.byteSize < u.byteSize ↔ s.length < u.length := by
  constructor
  · intro h
    obtain ⟨w, rfl⟩ := prefix_of_byteSize_le hs hu (Nat.le_of_lt h)
    have hw : w ≠ [] := by
      rintro rfl
      simp at h
    simpa using List.length_pos_iff.mpr hw
  · intro h
    obtain ⟨w, rfl⟩ := List.prefix_of_prefix_length_le hs hu (Nat.le_of_lt h)
    have hw : byteSize w ≠ 0 := fun hw => by
      rw [byteSize_eq_zero hw, List.append_nil] at h
      exact Nat.lt_irrefl _ h
    rw [byteSize_append]
    omega

theorem slice?_of_prefix {s u t : Text} (hs : s <+: u) (hu : u <+: t) :
    t.slice? s.byteSize u.byteSize = some (u.drop s.length) := by
  obtain ⟨w, rfl⟩ := hs
  obtain ⟨r, rfl⟩ := hu
  rw [List.drop_left, List.append_assoc]
  exact slice?_append s w r

/-- Two beginnings of a text have as many characters in common as the shorter one has, and as many
bytes. -/
theorem byteSize_take {s u t : Text} (hs : s <+: t) (hu : u <+: t) :
    byteSize (u.take s.length) = min s.byteSize u.byteSize := by
  rcases List.prefix_or_prefix_of_prefix hs hu with ⟨w, rfl⟩ | ⟨w, rfl⟩
  · simp
  · simp [List.take_of_length_le]

end Text

open Text

/-! ## The place of the imports -/

namespace Code

/-- A walk over the lines that keeps the end of the last import or package line, and the end of the
lines so far. -/
def importWalk (lines : List Text) : Nat × Nat :=
  lines.foldl (fun (place, offset) line =>
    (if isHeadLine line then offset + line.byteSize else place, offset + line.byteSize)) (0, 0)

/-- The byte offset behind the last import or package line, or 0. -/
def importPlace (code : Text) : Nat := (importWalk (linesWithEnds code)).1

theorem importWalk_eq (ls : List Text) :
    importWalk ls =
      (byteSize (ls.reverse.dropWhile fun line => !isHeadLine line).reverse.flatten,
        byteSize ls.flatten) := by
  induction ls using List.reverseRecOn with
  | nil => rfl
  | append_singleton ls l ih =>
    unfold importWalk at ih ⊢
    rw [List.foldl_append, ih, List.reverse_append, List.flatten_append]
    by_cases hl : isHeadLine l = true
    · simp [hl]
    · simp [hl]

theorem importPlace_eq (code : Text) : importPlace code = (importHead code).byteSize :=
  congrArg Prod.fst (importWalk_eq (linesWithEnds code))

end Code

/-! ## Results -/

namespace Document

variable {d : Document} {before after : Text}

theorem around?_eq_some : d.around? = some (before, after) ↔
    ∃ selected, d.base = before ++ (selected ++ after) ∧ before.byteSize = d.selection.start ∧
      (before ++ selected).byteSize = d.selection.stop := by
  unfold around?
  constructor
  · intro h
    split at h
    next => cases h
    next horder =>
      obtain ⟨⟨b, rest⟩, hsplit, h⟩ := Option.bind_eq_some_iff.mp h
      obtain ⟨⟨selected, a⟩, hselected, h⟩ := Option.bind_eq_some_iff.mp h
      cases h
      obtain ⟨hbase, hstart⟩ := splitBytes?_eq_some.mp hsplit
      obtain ⟨hrest, hsize⟩ := splitBytes?_eq_some.mp hselected
      refine ⟨selected, by rw [hbase, hrest], hstart, ?_⟩
      rw [byteSize_append]
      omega
  · rintro ⟨selected, hbase, hstart, hstop⟩
    rw [byteSize_append] at hstop
    have horder : ¬ d.selection.stop < d.selection.start := by omega
    have hsize : d.selection.stop - d.selection.start = selected.byteSize := by omega
    rw [if_neg horder, hsize, hbase, ← hstart]
    simp [splitBytes?_eq_some.mpr ⟨rfl, rfl⟩]

/-- A result in its place, put together from slices of the base text. -/
def insertSliced? (d : Document) (result : Text) : Option Applied := do
  let placement := d.placeHelpers (trim result)
  let (inserted, offset) := takeMarkers d.config.cursorMarker placement.snippet
  let place := min (Code.importPlace d.base) d.selection.start
  let head ← d.base.slice? 0 place
  let rest ← d.base.slice? place d.base.byteSize
  let imports := d.importBlock head rest
  let between ← d.base.slice? place d.selection.start
  let after ← d.base.slice? d.selection.stop d.base.byteSize
  return {
    text := appendSections (head ++ imports ++ between ++ inserted ++ after) placement.sections
    cursor := imports.byteSize + d.selection.start + offset }

/-- If the selection lies in the base text, the slices exist and are the parts of the text around
the result. -/
theorem insertSliced?_eq_some (h : d.around? = some (before, after)) (result : Text) :
    d.insertSliced? result = some (d.insert before after result) := by
  obtain ⟨selected, hbase, hstart, hstop⟩ := around?_eq_some.mp h
  obtain ⟨behind, himports, -⟩ := Code.importHead_spec d.base
  -- the imports stand behind the last import line, or where the selection starts
  have hplace : min (Code.importPlace d.base) d.selection.start =
      byteSize (before.take (Code.importHead d.base).length) := by
    rw [Code.importPlace_eq, ← hstart]
    exact (byteSize_take ⟨behind, himports.symm⟩ ⟨_, hbase.symm⟩).symm
  have hbefore := List.prefix_iff_eq_append.mp
    (List.take_prefix (Code.importHead d.base).length before)
  unfold insertSliced? insert
  generalize before.take (Code.importHead d.base).length = head at *
  generalize before.drop head.length = between at *
  subst hbefore
  have hhead : d.base.slice? 0 (byteSize head) = some head := by
    rw [hbase, List.append_assoc]
    exact slice?_append [] head _
  have hrest : d.base.slice? (byteSize head) d.base.byteSize =
      some (d.base.drop head.length) := by
    have hslice := slice?_append head (between ++ (selected ++ after)) []
    rw [List.append_nil, ← List.append_assoc, ← hbase] at hslice
    rw [hslice, hbase, List.append_assoc, List.drop_left]
  have hbetween : d.base.slice? (byteSize head) d.selection.start = some between := by
    rw [hbase, ← hstart, List.append_assoc]
    exact slice?_append head between _
  have hafter : d.base.slice? d.selection.stop d.base.byteSize = some after := by
    have hslice := slice?_append (head ++ between ++ selected) after []
    rwa [List.append_nil, List.append_assoc (head ++ between), ← hbase, hstop] at hslice
  simp only [hplace, hhead, hrest, hbetween, hafter, hstart, Option.bind_eq_bind, Option.bind_some,
    List.drop_left]
  rfl

end Document

end SnippetEngine
