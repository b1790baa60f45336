-- The laws of the scanner. The tokens are cut without knowing where they are read, and yet the
-- segments are those of a machine that reads one character at a time and remembers a pending `$`.
-- Each formula says where it stands in the code, and the formulas stand one behind another.
import SnippetEngine.Proofs.Template.RoundTrip
import SnippetEngine.Proofs.Template.Sources

namespace SnippetEngine.Segment

open Text

/-! ## The machine, character by character -/

/-- The machine between two characters. -/
structure Reader where
  mode : Mode := .text
  /-- The characters of the open segment, last one first. -/
  pending : Text := []
  /-- The byte at which the next character begins. -/
  offset : Nat := 0
  /-- The segments that are complete. -/
  segments : List Segment := []

namespace Reader

def push (s : Reader) (c : Char) : Reader := { s with pending := c :: s.pending }

/-- A `$` in text is pending until the next character tells what it means. -/
def read (s : Reader) (c : Char) : Reader :=
  match s.mode with
  | .text => if c = '$' then { s with mode := .dollar s.offset } else s.push c
  | .dollar start =>
    if c = '$' then { s with mode := .text }.push '$'
    else if c = '{' then
      { s with
        mode := .formula start
        pending := []
        segments := s.segments ++ ofPending s.pending }
    else ({ s with mode := .text }.push '$').push c
  | .formula start =>
    if c = '}' then
      { s with
        mode := .text
        pending := []
        segments := s.segments ++ [formula s.pending.reverse start] }
    else s.push c

def step (s : Reader) (c : Char) : Reader := { s.read c with offset := s.offset + c.utf8Size }

/-- The segments at the end of the code: pending text is the last one, and an open formula is
dropped. -/
def finish (s : Reader) : List Segment :=
  s.segments ++
    match s.mode with
    | .text => ofPending s.pending
    | .dollar _ => ofPending ('$' :: s.pending)
    | .formula _ => []

theorem finish_foldl (s : Reader) (code : Text) :
    (code.foldl step s).finish = s.segments ++ ofChars s.mode s.pending s.offset code := by
  induction code generalizing s with
  | nil => rcases s with ⟨_ | start | start, pending, offset, segments⟩ <;> rfl
  | cons c code ih =>
    rw [List.foldl_cons, ih]
    rcases s with ⟨_ | start | start, pending, offset, segments⟩
    · by_cases hd : c = '$'
      · simp [step, read, ofChars, hd, show '$'.utf8Size = 1 from rfl]
      · simp [step, read, push, ofChars, hd]
    · by_cases hd : c = '$'
      · simp [step, read, push, ofChars, hd, show '$'.utf8Size = 1 from rfl]
      · by_cases hb : c = '{'
        · simp [step, read, ofChars, hb, show '{'.utf8Size = 1 from rfl]
        · simp [step, read, push, ofChars, hd, hb]
    · by_cases hb : c = '}'
      · simp [step, read, ofChars, hb, show '}'.utf8Size = 1 from rfl]
      · simp [step, read, push, ofChars, hb]

end Reader

/-! ## Places of formulas -/

/-- If both are formulas, the second opens later, and not before the first is closed. -/
def InOrder : Segment → Segment → Prop
  | formula body start, formula _ next =>
    start < next ∧ start + (formulaSource body).byteSize ≤ next
  | _, _ => True

namespace Reads

variable {offset start : Nat} {code body : Text} {segments : List Segment}

theorem le_start (h : Reads offset code segments) (hmem : .formula body start ∈ segments) :
    offset ≤ start := by
  obtain ⟨pre, post, rfl⟩ := List.append_of_mem hmem
  obtain ⟨front, -, -, -, rfl, -⟩ := h.cut
  exact Nat.le_add_right _ _

theorem inOrder (h : Reads offset code segments) : segments.Pairwise InOrder := by
  induction h with
  | nil => exact .nil
  | text _ _ _ _ ih => exact List.pairwise_cons.mpr ⟨fun _ _ => trivial, ih⟩
  | @formula offset body r segments _ hrest ih =>
    refine List.pairwise_cons.mpr ⟨fun s hs => ?_, ih⟩
    cases s with
    | text => exact trivial
    | formula next start =>
      have hbehind := hrest.le_start hs
      rw [InOrder, byteSize_formulaSource]
      omega

end Reads

theorem exists_source_of_mem_scan {code body : Text} {start : Nat}
    (h : formula body start ∈ scan code) : '}' ∉ body ∧
      ∃ front back, code.splitBytes? start = some (front, formulaSource body ++ back) := by
  have hcode : code ≠ [] := by
    rintro rfl
    simp [show scan [] = [text []] from rfl] at h
  obtain ⟨read, rest, rfl, hreads, -⟩ := exists_reads_scan hcode
  obtain ⟨pre, post, hsplit⟩ := List.append_of_mem h
  rw [hsplit] at hreads
  obtain ⟨front, back, rfl, -, hstart, hbody, -⟩ := hreads.cut
  refine ⟨hbody, front, back ++ rest, splitBytes?_eq_some.mpr ⟨?_, ?_⟩⟩
  · simp
  · rw [hstart, Nat.zero_add]

/-! ## The laws -/

/-- The segments of code are those of the machine that reads one character at a time. A formula
stands in the code as it is written, from its byte on, and its body ends at the first brace.
Formulas stand one behind another, no text has a text as its neighbour, and no text is empty but
the one of empty code. -/
theorem scans_read_one_character_at_a_time (code : Text) :
    scan code = (if code = [] then [text []] else (code.foldl Reader.step {}).finish) ∧
    (∀ body start, formula body start ∈ scan code → '}' ∉ body ∧
      ∃ front back, code.splitBytes? start = some (front, formulaSource body ++ back)) ∧
    (scan code).Pairwise InOrder ∧
    (scan code).IsChain (fun s s' => ¬ (s.isText ∧ s'.isText)) ∧
    (text [] ∈ scan code ↔ code = []) := by
  refine ⟨?_, fun body start hmem => exists_source_of_mem_scan hmem, ?_⟩
  · rw [Reader.finish_foldl, scan_eq_scanChars, scanChars]
    simp
  by_cases hcode : code = []
  · subst hcode
    have hscan : scan [] = [text []] := rfl
    rw [hscan]
    exact ⟨List.pairwise_singleton _ _, List.isChain_singleton _, by simp⟩
  · obtain ⟨front, rest, rfl, hreads, -⟩ := exists_reads_scan hcode
    obtain ⟨hclean, hchain⟩ := alternating_scan hcode
    exact ⟨hreads.inOrder, hchain, iff_of_false (fun hmem => hclean _ hmem rfl) hcode⟩

/-- Escapes and openings in a formula are its body, and what is opened last is dropped. -/
theorem dollars_in_a_formula_are_its_body :
    let code := "é$$$\x7ba$$$\x7bb\x7d\x7dc$\x7bd".toList
    let body := "a$$$\x7bb".toList
    scan code = [.text "é$".toList, .formula body 4, .text "\x7dc".toList] ∧
      (code.foldl Reader.step {}).finish = scan code ∧ .formula body 4 ∈ scan code ∧ '}' ∉ body ∧
      ∃ front back, splitBytes? code 4 = some (front, formulaSource body ++ back) := by
  intro code body
  obtain ⟨hmachine, hplace, -⟩ := scans_read_one_character_at_a_time code
  have hscan : scan code = [.text "é$".toList, .formula body 4, .text "\x7dc".toList] := by
    decide +kernel
  have hmem : .formula body 4 ∈ scan code := by
    rw [hscan]
    exact List.mem_cons_of_mem _ List.mem_cons_self
  rw [if_neg (by decide)] at hmachine
  exact ⟨hscan, hmachine.symm, hmem, hplace body 4 hmem⟩

end SnippetEngine.Segment
