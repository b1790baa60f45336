-- Identifiers hold letters, numbers and `_`. None of these is a blank, and none has a meaning in
-- the syntax of formulas.
import SnippetEngine.Proofs.Text.Cuts
import SnippetEngine.Text.Letter

namespace SnippetEngine.Text

/-- The code points of the blank characters. -/
def blankPoints : List Nat :=
  [0x9, 0xA, 0xB, 0xC, 0xD, 0x20, 0x85, 0xA0, 0x1680, 0x2000, 0x2001, 0x2002, 0x2003, 0x2004,
    0x2005, 0x2006, 0x2007, 0x2008, 0x2009, 0x200A, 0x2028, 0x2029, 0x202F, 0x205F, 0x3000]

theorem toNat_mem_blankPoints {c : Char} (h : isBlank c = true) : c.toNat ∈ blankPoints := by
  simp only [isBlank, Bool.or_eq_true, Bool.and_eq_true, decide_eq_true_eq, beq_iff_eq] at h
  simp only [blankPoints, List.mem_cons, List.not_mem_nil, or_false]
  omega

theorem blankPoints_not_alphanumeric {n : Nat} (h : n ∈ blankPoints) :
    isAlphanumeric (Char.ofNat n) = false := by
  have hall : blankPoints.all (fun n => !isAlphanumeric (Char.ofNat n)) = true := by decide +kernel
  simpa using List.all_eq_true.mp hall n h

/-- A character of a name of a formula or variable. -/
def isNameChar (c : Char) : Bool := isAlphanumeric c || c == '_'

theorem not_isBlank_of_isNameChar {c : Char} (h : isNameChar c = true) : isBlank c = false := by
  rw [Bool.eq_false_iff]
  intro hb
  have hpoint := toNat_mem_blankPoints hb
  have halpha := blankPoints_not_alphanumeric hpoint
  rw [Char.ofNat_toNat] at halpha
  rw [isNameChar, halpha, Bool.false_or, beq_iff_eq] at h
  subst h
  revert hb
  decide

/-- The characters that separate the parts of a formula, and those that open and close one. -/
def formulaMarks : Text := ['(', ')', ',', ':', '}', '$']

theorem not_isNameChar_of_mem_formulaMarks {c : Char} (h : c ∈ formulaMarks) :
    isNameChar c = false := by
  have hall : formulaMarks.all (!isNameChar ·) = true := by decide
  simpa using List.all_eq_true.mp hall c h

theorem isNameChar_of_mem {name : Text} (h : isIdentifier name = true) {c : Char} (hc : c ∈ name) :
    isNameChar c = true := by
  cases name with
  | nil => cases hc
  | cons d r =>
    simp only [isIdentifier, Bool.and_eq_true, List.all_eq_true] at h
    rcases List.mem_cons.mp hc with rfl | hc
    · have := h.1
      simp only [Bool.or_eq_true] at this
      rcases this with ha | hu
      · simp [isNameChar, isAlphanumeric, ha]
      · simp [isNameChar, hu]
    · exact h.2 c hc

theorem mark_not_mem_identifier {name : Text} (h : isIdentifier name = true) {c : Char}
    (hc : c ∈ formulaMarks) : c ∉ name := by
  intro hm
  have h1 := isNameChar_of_mem h hm
  rw [not_isNameChar_of_mem_formulaMarks hc] at h1
  cases h1

theorem identifier_ne_nil {name : Text} (h : isIdentifier name = true) : name ≠ [] := by
  rintro rfl
  cases h

/-- An identifier with a text behind it starts with no blank. -/
theorem head_identifier_append {name : Text} (h : isIdentifier name = true) (t : Text) :
    ∀ c ∈ (name ++ t).head?, isBlank c = false := by
  intro c hc
  obtain ⟨d, r, rfl⟩ := List.exists_cons_of_ne_nil (identifier_ne_nil h)
  rw [List.cons_append, List.head?_cons, Option.mem_some_iff] at hc
  subst hc
  exact not_isBlank_of_isNameChar (isNameChar_of_mem h List.mem_cons_self)

theorem isTight_identifier {name : Text} (h : isIdentifier name = true) : IsTight name := by
  refine ⟨?_, fun c hc => ?_⟩
  · have := head_identifier_append h []
    rwa [List.append_nil] at this
  · exact not_isBlank_of_isNameChar (isNameChar_of_mem h (List.mem_of_getLast? hc))

end SnippetEngine.Text
