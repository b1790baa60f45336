-- Texts cut into pieces: between separators, into words and into lines.
import SnippetEngine.Text.Basic

namespace SnippetEngine.Text

/-! ## Pieces -/

/-- The pieces of a text with a character that is no separator in front of it. -/
def growFirst (c : Char) (ps : List Text) : List Text := ps.modifyHead (c :: ·)

/-- The pieces between the separators, empty ones included. -/
def pieces (isSeparator : Char → Bool) (t : Text) : List Text :=
  t.foldr (fun c ps => if isSeparator c then [] :: ps else growFirst c ps) [[]]

/-- The pieces between the characters `sep`, empty ones included. -/
def splitOn (sep : Char) (t : Text) : List Text := pieces (· == sep) t

theorem pieces_cons (isSeparator : Char → Bool) (c : Char) (t : Text) :
    pieces isSeparator (c :: t) =
      if isSeparator c then [] :: pieces isSeparator t else growFirst c (pieces isSeparator t) :=
  rfl

theorem pieces_ne_nil (isSeparator : Char → Bool) (t : Text) : pieces isSeparator t ≠ [] := by
  induction t with
  | nil => simp [pieces]
  | cons c t ih =>
    rw [pieces_cons]
    split
    · simp
    · simpa [growFirst] using ih

/-- The pieces with the separator between them are the text. -/
theorem intercalate_splitOn (sep : Char) (t : Text) : [sep].intercalate (splitOn sep t) = t := by
  induction t with
  | nil => rfl
  | cons c t ih =>
    obtain ⟨p, ps, h⟩ := List.exists_cons_of_ne_nil (pieces_ne_nil (· == sep) t)
    rw [splitOn, h] at ih
    rw [splitOn, pieces_cons, h]
    by_cases hc : c = sep
    · simp [hc, ih]
    · cases ps with
      | nil => simpa [hc, growFirst] using ih
      | cons q qs => simpa [hc, growFirst] using ih

/-! ## Lines -/

/-- The lines of a text with a character in front of it. -/
def growLines (c : Char) : List Text → List Text
  | [] => [[c]]
  | l :: ls => if c = '\n' then [c] :: l :: ls else (c :: l) :: ls

/-- The lines with their line ends; only the last may lack one. -/
def linesWithEnds (t : Text) : List Text := t.foldr growLines []

theorem flatten_growLines (c : Char) (ls : List Text) :
    (growLines c ls).flatten = c :: ls.flatten := by
  fun_cases growLines c ls <;> simp

/-- The lines with their line ends are the text. -/
theorem flatten_linesWithEnds (t : Text) : (linesWithEnds t).flatten = t := by
  induction t with
  | nil => rfl
  | cons c t ih => rw [linesWithEnds, List.foldr_cons, flatten_growLines]; exact congrArg _ ih

/-- A line without its line end, which is a line feed or a carriage return and a line feed. -/
def withoutLineEnd (line : Text) : Text :=
  match before? ['\n'] line with
  | none => line
  | some body => (before? ['\r'] body).getD body

/-- The lines without their line ends. A line end at the end of the text opens no further line. -/
def lines (t : Text) : List Text := (linesWithEnds t).map withoutLineEnd

end SnippetEngine.Text
