-- Templates written down. A text has its `$` doubled, and a formula is written without blanks. The
-- pieces that can be read back are the canonical ones: no text is empty or split in two, and no
-- argument holds a character that ends it.
import SnippetEngine.Proofs.Outcome
import SnippetEngine.Proofs.Text.Names
import SnippetEngine.Template.Snippet

namespace SnippetEngine

open Text

/-! ## Formulas -/

namespace Formula

/-- The characters that no argument may hold. -/
def argumentEnds : Text := ['(', ')', ',', '}']

structure IsCanonical (f : Formula) : Prop where
  name : isIdentifier f.name = true
  capture : ∀ v ∈ f.capture, isIdentifier v = true
  arguments : ∀ a ∈ f.arguments, ∀ c ∈ argumentEnds, c ∉ a
  /-- Empty parentheses hold no argument. -/
  not_blank : f.arguments ≠ [[]]

/-- The arguments in parentheses; nothing without arguments. -/
def printArguments : List Text → Text
  | [] => []
  | a :: as => '(' :: ([','].intercalate (a :: as) ++ [')'])

/-- The call of a formula, without its capture. -/
def printCall (f : Formula) : Text := f.name ++ printArguments f.arguments

def print (f : Formula) : Text :=
  match f.capture with
  | none => f.printCall
  | some v => v ++ ':' :: f.printCall

variable {f : Formula}

theorem IsCanonical.not_mem_intercalate (h : f.IsCanonical) {c : Char} (hc : c ∈ argumentEnds)
    (hcomma : c ≠ ',') : c ∉ [','].intercalate f.arguments := by
  have hall := h.arguments
  generalize f.arguments = as at hall
  induction as with
  | nil => simp
  | cons a as ih =>
    have ha := hall a List.mem_cons_self c hc
    cases as with
    | nil => simpa using ha
    | cons b bs =>
      have := ih fun x hx => hall x (List.mem_cons_of_mem _ hx)
      simp only [List.intercalate_cons_cons, List.mem_append, List.mem_singleton, not_or]
      exact ⟨⟨ha, hcomma⟩, this⟩

/-- A canonical call without a brace is written without a brace. -/
theorem IsCanonical.brace_not_mem_print (h : f.IsCanonical) : '}' ∉ f.print := by
  have hname := mark_not_mem_identifier h.name (show '}' ∈ formulaMarks by decide)
  have hargs : '}' ∉ printArguments f.arguments := by
    have := h.not_mem_intercalate (show '}' ∈ argumentEnds by decide) (by decide)
    cases has : f.arguments with
    | nil => simp [printArguments]
    | cons a as =>
      rw [has] at this
      simpa [printArguments] using this
  have hcall : '}' ∉ f.printCall := by
    simp [printCall, hname, hargs]
  cases hv : f.capture with
  | none => simpa [print, hv] using hcall
  | some v =>
    have := mark_not_mem_identifier (h.capture v hv) (show '}' ∈ formulaMarks by decide)
    simp [print, hv, this, hcall]

/-! ## Reading a written formula -/

theorem IsCanonical.splitArguments_printCall (h : f.IsCanonical) :
    splitArguments f.printCall = .ok (f.name, f.arguments) := by
  have hname : '(' ∉ f.name := mark_not_mem_identifier h.name (by decide)
  have htrim := trim_eq_self (isTight_identifier h.name)
  cases has : f.arguments with
  | nil =>
    have hcall : f.printCall = f.name := by simp [printCall, has, printArguments]
    rw [hcall, splitArguments, cutAtChar?_eq_none hname, htrim]
  | cons a as =>
    have hopen := h.not_mem_intercalate (show '(' ∈ argumentEnds by decide) (by decide)
    have hclose := h.not_mem_intercalate (show ')' ∈ argumentEnds by decide) (by decide)
    have hcommas : ∀ t ∈ f.arguments, ',' ∉ t := fun t ht => h.arguments t ht _ (by decide)
    have hblank := h.not_blank
    rw [has] at hopen hclose hcommas hblank
    have hcall : f.printCall = f.name ++ '(' :: ([','].intercalate (a :: as) ++ [')']) := by
      simp [printCall, has, printArguments]
    have hsplit := splitOn_intercalate hcommas (List.cons_ne_nil a as)
    generalize [','].intercalate (a :: as) = inner at *
    have hne : inner ≠ [] := by
      rintro rfl
      exact hblank hsplit.symm
    have hbefore : before? [')'] (inner ++ [')']) = some inner := before?_eq_some.mpr rfl
    rw [hcall, splitArguments, cutAtChar?_append hname]
    simp [hbefore, hopen, hclose, hne, htrim, hsplit]

/-- The name of a call holds no colon, so a colon in it stands behind its parenthesis. -/
theorem IsCanonical.open_mem_before (h : f.IsCanonical) {before after : Text}
    (hcall : f.printCall = before ++ ':' :: after) : '(' ∈ before := by
  have hcolon : ':' ∉ f.name := mark_not_mem_identifier h.name (by decide)
  rw [printCall] at hcall
  cases has : f.arguments with
  | nil =>
    rw [has, printArguments, List.append_nil] at hcall
    exact absurd (hcall ▸ List.mem_append_right _ List.mem_cons_self) hcolon
  | cons a as =>
    rw [has, printArguments] at hcall
    exact mem_of_append_cons_eq hcolon (by decide) hcall

theorem IsCanonical.splitCapture_print (h : f.IsCanonical) :
    splitCapture f.print = .ok (f.capture, f.printCall) := by
  cases hv : f.capture with
  | some v =>
    have hid := h.capture v hv
    have hcolon : ':' ∉ v := mark_not_mem_identifier hid (by decide)
    have hopen : '(' ∉ v := mark_not_mem_identifier hid (by decide)
    have hprint : f.print = v ++ ':' :: f.printCall := by simp [print, hv]
    rw [hprint, splitCapture, cutAtChar?_append hcolon]
    simp [hopen, trim_eq_self (isTight_identifier hid), hid]
  | none =>
    have hprint : f.print = f.printCall := by simp [print, hv]
    rw [hprint, splitCapture]
    cases hcut : cutAtChar? ':' f.printCall with
    | none => rfl
    | some cut =>
      obtain ⟨before, after⟩ := cut
      -- The name holds no colon, so a colon stands behind the parenthesis.
      have hopen : '(' ∈ before := h.open_mem_before (eq_of_cutAtChar? hcut).1
      simp [hopen]

theorem IsCanonical.isTight_print (h : f.IsCanonical) : IsTight f.print := by
  have hlast : ∀ c ∈ f.printCall.getLast?, isBlank c = false := by
    intro c hc
    cases has : f.arguments with
    | nil =>
      simp only [printCall, has, printArguments, List.append_nil] at hc
      exact (isTight_identifier h.name).2 c hc
    | cons a as =>
      have hend : f.printCall =
          (f.name ++ '(' :: [','].intercalate (a :: as)) ++ [')'] := by
        simp [printCall, has, printArguments]
      rw [hend, List.getLast?_concat, Option.mem_some_iff] at hc
      subst hc
      decide
  have hne : f.printCall ≠ [] := by
    simp [printCall, identifier_ne_nil h.name]
  cases hv : f.capture with
  | none =>
    have hprint : f.print = f.printCall := by simp [print, hv]
    rw [hprint]
    exact ⟨head_identifier_append h.name _, hlast⟩
  | some v =>
    have hprint : f.print = (v ++ [':']) ++ f.printCall := by simp [print, hv]
    refine ⟨?_, fun c hc => ?_⟩
    · rw [hprint, List.append_assoc]
      exact head_identifier_append (h.capture v hv) _
    · obtain ⟨r, d, hr⟩ : ∃ r d, f.printCall = r ++ [d] := by
        rcases List.eq_nil_or_concat f.printCall with hnil | ⟨r, d, hr⟩
        · exact absurd hnil hne
        · exact ⟨r, d, by simpa using hr⟩
      rw [hr, List.getLast?_concat] at hlast
      rw [hprint, hr, ← List.append_assoc, List.getLast?_concat] at hc
      exact hlast c hc

/-- A formula that is written down is read back as it was. -/
theorem IsCanonical.parse_print (h : f.IsCanonical) : parse f.print = .ok f := by
  have htrim := trim_eq_self h.isTight_print
  have hne : f.print ≠ [] := by
    cases hv : f.capture <;> simp [print, printCall, hv, identifier_ne_nil h.name]
  unfold parse
  rw [htrim, h.splitCapture_print]
  simp [hne, h.splitArguments_printCall, h.name, pure, Except.pure]

/-! ## What is read is canonical -/

/-- A capture stands in front of a colon, with an identifier as its name. -/
theorem splitCapture_eq_ok {body call : Text} {capture : Option Text}
    (h : splitCapture body = .ok (capture, call)) : (capture = none ∧ body = call) ∨
      ∃ before, body = before ++ ':' :: call ∧ isIdentifier (trim before) = true ∧
        capture = some (trim before) := by
  unfold splitCapture at h
  split at h
  next =>
    cases h
    exact .inl ⟨rfl, rfl⟩
  next before after hcut =>
    split at h
    next =>
      cases h
      exact .inl ⟨rfl, rfl⟩
    next =>
      split at h
      next hid =>
        cases h
        exact .inr ⟨before, (eq_of_cutAtChar? hcut).1, hid, rfl⟩
      next => cases h

/-- The arguments stand in parentheses at the end, with no other ones in them. -/
theorem splitArguments_eq_ok {call name : Text} {arguments : List Text}
    (h : splitArguments call = .ok (name, arguments)) : (name = trim call ∧ arguments = []) ∨
      ∃ before inner, call = before ++ '(' :: (inner ++ [')']) ∧ '(' ∉ inner ∧ ')' ∉ inner ∧
        arguments = if inner.isEmpty then [] else splitOn ',' inner := by
  unfold splitArguments at h
  split at h
  next =>
    cases h
    exact .inl ⟨rfl, rfl⟩
  next before tail hcut =>
    split at h
    next => cases h
    next inner hinner =>
      split at h
      next => cases h
      next hopen =>
        split at h
        next => cases h
        next hclose =>
          cases h
          refine .inr ⟨before, inner, ?_, by simpa using hopen, by simpa using hclose, rfl⟩
          rw [(eq_of_cutAtChar? hcut).1, before?_eq_some.mp hinner]

theorem parse_eq_ok {body : Text} (h : parse body = .ok f) :
    ∃ call, splitCapture (trim body) = .ok (f.capture, call) ∧
      splitArguments call = .ok (f.name, f.arguments) ∧ isIdentifier f.name = true := by
  unfold parse at h
  split at h
  next => cases h
  next =>
    obtain ⟨⟨capture, call⟩, hcapture, h⟩ := bind_eq_ok.mp h
    obtain ⟨⟨name, arguments⟩, hcall, h⟩ := bind_eq_ok.mp h
    dsimp only at h
    split at h
    next hid =>
      cases h
      exact ⟨call, hcapture, hcall, hid⟩
    next => cases h

theorem isIdentifier_of_splitCapture {body call : Text} {capture : Option Text}
    (h : splitCapture body = .ok (capture, call)) :
    (∀ v ∈ capture, isIdentifier v = true) ∧ ∀ c ∈ call, c ∈ body := by
  obtain ⟨rfl, rfl⟩ | ⟨before, rfl, hid, rfl⟩ := splitCapture_eq_ok h
  · exact ⟨by simp, fun c hc => hc⟩
  · exact ⟨by simpa using hid, fun c hc => List.mem_append_right _ (List.mem_cons_of_mem _ hc)⟩

theorem arguments_of_splitArguments {call name : Text} {arguments : List Text}
    (hbrace : '}' ∉ call) (h : splitArguments call = .ok (name, arguments)) :
    (∀ a ∈ arguments, ∀ c ∈ argumentEnds, c ∉ a) ∧ arguments ≠ [[]] := by
  obtain ⟨-, rfl⟩ | ⟨before, inner, rfl, hopen, hclose, rfl⟩ := splitArguments_eq_ok h
  · simp
  have hb : '}' ∉ inner := fun hm => hbrace (by simp [hm])
  split
  next => simp
  next hne =>
    refine ⟨fun a ha c hc hca => ?_, fun he => ?_⟩
    · have hmem := of_mem_pieces ha hca
      simp only [argumentEnds, List.mem_cons, List.not_mem_nil, or_false] at hc
      rcases hc with rfl | rfl | rfl | rfl
      · exact hopen hmem.1
      · exact hclose hmem.1
      · simp at hmem
      · exact hb hmem.1
    · have := intercalate_splitOn ',' inner
      rw [he] at this
      exact hne (by simpa using this.symm)

theorem isCanonical_of_parse {body : Text} (hbrace : '}' ∉ body) (h : parse body = .ok f) :
    f.IsCanonical := by
  obtain ⟨call, hcapture, hcall, hname⟩ := parse_eq_ok h
  obtain ⟨hvariable, hsub⟩ := isIdentifier_of_splitCapture hcapture
  have hbody : '}' ∉ trim body := fun hm => hbrace (mem_of_mem_trim hm)
  obtain ⟨harguments, hblank⟩ := arguments_of_splitArguments (fun hm => hbody (hsub _ hm)) hcall
  exact ⟨hname, hvariable, harguments, hblank⟩

end Formula

end SnippetEngine
