-- Searching template code for a formula as it is written without blanks. The search looks at the
-- characters alone. It stops at the first formula written this way, unless a text in front of it
-- reads the same: there a `$` that is escaped stands in front of a brace.
import SnippetEngine.Proofs.Document.Slices
import SnippetEngine.Proofs.Template.Printing
import SnippetEngine.Proofs.Template.Sources
import SnippetEngine.Proofs.Text.Occurrences

namespace SnippetEngine

open Text

variable {name body : Text} {f : Formula}

/-! ## Formulas in formulas -/

theorem Text.trim_concat {c : Char} (hc : isBlank c = false) (t : Text) :
    trim (t ++ [c]) = trimStart t ++ [c] := by
  have hstart : trimStart (t ++ [c]) = trimStart t ++ [c] := by
    unfold trimStart
    rw [List.dropWhile_append]
    split
    next h => simp [hc, List.isEmpty_iff.mp h]
    next => rfl
  rw [trim, hstart, trimEnd]
  simp [hc]

namespace Formula

/-- A capture has no `$`, and neither has a name. So a `$` stands in the arguments, and the body ends
with these. -/
theorem getLast?_trim_of_parse (h : parse body = .ok f) (hd : '$' ∈ body) :
    (trim body).getLast? = some ')' := by
  obtain ⟨call, hcapture, hcall, hname⟩ := parse_eq_ok h
  have hplain : ∀ t, isIdentifier (trim t) = true → '$' ∉ t := fun t ht hm =>
    mark_not_mem_identifier ht (by decide) ((mem_trim_iff (by decide)).mpr hm)
  have hbody : '$' ∈ trim body := (mem_trim_iff (by decide)).mpr hd
  have hend : '$' ∈ call → call.getLast? = some ')' := by
    intro hd
    obtain ⟨htrim, -⟩ | ⟨before, inner, rfl, -⟩ := splitArguments_eq_ok hcall
    · exact absurd hd (hplain call (htrim ▸ hname))
    · rw [← List.cons_append, ← List.append_assoc]
      exact List.getLast?_concat
  obtain ⟨-, hwhole⟩ | ⟨before, hcut, hid, -⟩ := splitCapture_eq_ok hcapture
  · rw [hwhole] at hbody ⊢
    exact hend hbody
  · rw [hcut] at hbody ⊢
    have hd : '$' ∈ call := by simpa [hplain before hid] using hbody
    rw [List.getLast?_append, List.getLast?_cons, hend hd]
    rfl

/-- No formula ends with what opens another one and a name. -/
theorem not_suffix_of_parse (h : parse body = .ok f) (hname : isIdentifier name = true) :
    ¬ '$' :: '{' :: name <:+ body := by
  rintro ⟨front, rfl⟩
  rcases List.eq_nil_or_concat' name with rfl | ⟨n, c, rfl⟩
  · cases hname
  · have hc : c ∈ n ++ [c] := List.mem_concat_self
    have hblank := not_isBlank_of_isNameChar (isNameChar_of_mem hname hc)
    have hlast := getLast?_trim_of_parse h (by simp)
    have hbody : front ++ '$' :: '{' :: (n ++ [c]) = (front ++ '$' :: '{' :: n) ++ [c] := by simp
    rw [hbody, trim_concat hblank, List.getLast?_concat] at hlast
    cases hlast
    exact mark_not_mem_identifier hname (by decide) hc

end Formula

/-- Of the members of a list that have a property there is a first one. -/
theorem exists_first {α : Type} {p : α → Prop} {l : List α} (h : ∃ a ∈ l, p a) :
    ∃ pre a post, l = pre ++ a :: post ∧ p a ∧ ∀ b ∈ pre, ¬ p b := by
  classical
  obtain ⟨a, ha⟩ := Option.isSome_iff_exists.mp
    (List.find?_isSome.mpr (h.imp fun a ha => ha.imp_right decide_eq_true))
  obtain ⟨hp, pre, post, hl, hfirst⟩ := List.find?_eq_some_iff_append.mp ha
  exact ⟨pre, a, post, hl, of_decide_eq_true hp, fun b hb => by simpa using hfirst b hb⟩

namespace Segment

/-- In a formula that is read nothing is written like a formula of a name, but the whole of it. -/
theorem formulaSource_infix_iff (hname : isIdentifier name = true) (hbody : '}' ∉ body)
    (h : Formula.parse body = .ok f) :
    formulaSource name <:+: formulaSource body ↔ body = name := by
  refine ⟨fun ⟨x, y, hcut⟩ => ?_, fun h => h ▸ List.infix_rfl⟩
  have hcut : x ++ ('$' :: '{' :: name) ++ ('}' :: y) = ('$' :: '{' :: body) ++ ['}'] := by
    simpa [formulaSource] using hcut
  -- both end at the one brace that closes
  rcases List.eq_nil_or_concat' y with rfl | ⟨y, c, rfl⟩
  · have hopened := (List.append_inj' hcut rfl).1
    rcases x with _ | ⟨a, _ | ⟨b, x⟩⟩
    · simpa using hopened.symm
    · simp at hopened
    · have hrest := congrArg (List.drop 2) hopened
      exact absurd ⟨x, by simpa using hrest⟩ (Formula.not_suffix_of_parse h hname)
  · exfalso
    have hcut : x ++ ('$' :: '{' :: name) ++ ('}' :: y) ++ [c] = ('$' :: '{' :: body) ++ ['}'] := by
      simpa using hcut
    have hmem : '}' ∈ x ++ ('$' :: '{' :: name) ++ ('}' :: y) := by simp
    rw [(List.append_inj' hcut rfl).1] at hmem
    exact hbody (by simpa using hmem)

theorem dollar_not_mem_tail (hname : isIdentifier name = true) :
    '$' ∉ (formulaSource name).tail := by
  have := mark_not_mem_identifier hname (show '$' ∈ formulaMarks by decide)
  simpa [formulaSource] using this

theorem brace_not_mem_dropLast (hname : isIdentifier name = true) :
    '}' ∉ (formulaSource name).dropLast := by
  have hlast : formulaSource name = ('$' :: '{' :: name) ++ ['}'] := rfl
  have := mark_not_mem_identifier hname (show '}' ∈ formulaMarks by decide)
  rw [hlast, List.dropLast_concat]
  simpa using this

theorem prefix_formulaSource_append_iff (hname : isIdentifier name = true) (hbody : '}' ∉ body)
    (r : Text) : formulaSource name <+: formulaSource body ++ r ↔ body = name := by
  refine ⟨fun ⟨rest, hcut⟩ => ?_, fun h => h ▸ List.prefix_append _ r⟩
  have hcut : name ++ '}' :: rest = body ++ '}' :: r := by simpa [formulaSource] using hcut
  have hsame := congrArg (cutAtChar? '}') hcut
  rw [cutAtChar?_append (mark_not_mem_identifier hname (by decide)),
    cutAtChar?_append hbody] at hsame
  exact (congrArg Prod.fst (Option.some.inj hsame)).symm

/-! ## Segments that read like a formula -/

/-- The segment reads like the formula of a name, written without blanks. -/
def Spells (name : Text) : Segment → Prop
  | text t => formulaSource name <:+: t
  | formula body _ => body = name

/-- The segment is no formula, or one that is well formed. -/
def Parses : Segment → Prop
  | text _ => True
  | formula body _ => ∃ f, Formula.parse body = .ok f

variable {code : Text} {offset start : Nat} {segments pre post : List Segment}

/-- Code that is read has something like the formula of a name in it exactly if a segment has. -/
theorem Reads.infix_iff (h : Reads offset code segments) (hparses : ∀ s ∈ segments, s.Parses)
    (hname : isIdentifier name = true) :
    formulaSource name <:+: code ↔ ∃ s ∈ segments, s.Spells name := by
  have hne := formulaSource_ne_nil name
  induction h with
  | nil => simp [hne]
  | @text _ u t r segments hresolves _ hnext _ ih =>
    have hstart : ∀ d ∈ r.head?, d ∉ (formulaSource name).tail := by
      rcases hnext with rfl | ⟨r, rfl⟩
      · simp
      · simpa using dollar_not_mem_tail hname
    have hw : '$' ∉ name ++ ['}'] := by
      simpa [formulaSource] using dollar_not_mem_tail hname
    rw [infix_append_iff hne (.inr hstart), List.exists_mem_cons_iff]
    exact or_congr (hresolves.infix_iff hw) (ih fun s hs => hparses s (List.mem_cons_of_mem _ hs))
  | @formula _ body r segments hbody _ ih =>
    obtain ⟨f, hf⟩ := hparses _ List.mem_cons_self
    have hend : ∀ d ∈ (formulaSource body).getLast?, d ∉ (formulaSource name).dropLast := by
      have hlast : formulaSource body = ('$' :: '{' :: body) ++ ['}'] := rfl
      rw [hlast, List.getLast?_concat]
      simpa using brace_not_mem_dropLast hname
    rw [infix_append_iff hne (.inl hend), List.exists_mem_cons_iff]
    exact or_congr (formulaSource_infix_iff hname hbody hf)
      (ih fun s hs => hparses s (List.mem_cons_of_mem _ hs))

/-- The search finds the place of a formula exactly if that is written without blanks and nothing in
front of it reads the same. -/
theorem Reads.offsetOf?_eq_iff (h : Reads 0 code (pre ++ .formula body start :: post))
    (hparses : ∀ s ∈ pre, s.Parses) (hname : isIdentifier name = true) :
    offsetOf? (formulaSource name) code = some start ↔
      body = name ∧ ∀ s ∈ pre, ¬ s.Spells name := by
  have hne := formulaSource_ne_nil name
  obtain ⟨front, back, rfl, hfront, hstart, hbody, -⟩ := h.cut
  have hdollar : ∀ d ∈ (formulaSource body ++ back).head?, d ∉ (formulaSource name).tail := by
    simpa [formulaSource] using dollar_not_mem_tail hname
  rw [offsetOf?_append hne (.inr hdollar)]
  by_cases hspelled : ∃ s ∈ pre, s.Spells name
  · -- the search stops in front of the formula
    refine iff_of_false (fun hfound => ?_) fun h => ?_
    · have hsome := isSome_offsetOf?_iff.mpr ((hfront.infix_iff hparses hname).mpr hspelled)
      obtain ⟨k, hk⟩ := Option.isSome_iff_exists.mp hsome
      rw [hk, Option.some_or] at hfound
      have hle := add_byteSize_le_of_offsetOf? hk
      rw [byteSize_formulaSource] at hle
      cases hfound
      omega
    · obtain ⟨s, hs, hspells⟩ := hspelled
      exact h.2 s hs hspells
  · rw [offsetOf?_eq_none (mt (hfront.infix_iff hparses hname).mp hspelled), Option.none_or,
      ← prefix_formulaSource_append_iff hname hbody back, ← offsetOf?_eq_zero_iff, hstart]
    simpa [Option.map_eq_some_iff] using fun _ s hs hspells => hspelled ⟨s, hs, hspells⟩

/-! ## Searching code -/

theorem ne_nil_of_scan (hscan : scan code = pre ++ .formula body start :: post) : code ≠ [] := by
  rintro rfl
  have hmem : Segment.formula body start ∈ scan [] := by
    rw [hscan]
    simp
  cases List.mem_singleton.mp hmem

/-- A formula that is left open is not found. -/
theorem offsetOf?_append_of_isUnread (hname : isIdentifier name = true) (front : Text) {rest : Text}
    (h : IsUnread rest) :
    offsetOf? (formulaSource name) (front ++ rest) = offsetOf? (formulaSource name) front := by
  have hstart : ∀ d ∈ rest.head?, d ∉ (formulaSource name).tail := by
    rcases h with rfl | ⟨r, rfl, -⟩
    · simp
    · simpa using dollar_not_mem_tail hname
  have hnone : ¬ formulaSource name <:+: rest := fun hinfix => by
    have hbrace : '}' ∈ rest := hinfix.subset (by simp [formulaSource])
    rcases h with rfl | ⟨r, rfl, hr⟩
    · cases hbrace
    · exact hr (by simpa using hbrace)
  rw [offsetOf?_append (formulaSource_ne_nil name) (.inr hstart), offsetOf?_eq_none hnone]
  simp

variable (hparses : ∀ s ∈ scan code, s.Parses) (hname : isIdentifier name = true)
include hparses hname

theorem offsetOf?_eq_iff (hscan : scan code = pre ++ .formula body start :: post) :
    offsetOf? (formulaSource name) code = some start ↔
      body = name ∧ ∀ s ∈ pre, ¬ s.Spells name := by
  obtain ⟨front, rest, hcode, hreads, hrest⟩ := exists_reads_scan (ne_nil_of_scan hscan)
  rw [hscan] at hreads hparses
  rw [hcode, offsetOf?_append_of_isUnread hname front hrest]
  exact hreads.offsetOf?_eq_iff (fun s hs => hparses s (List.mem_append_left _ hs)) hname

/-- What the search finds is a formula, if no text reads the same. -/
theorem exists_formula_of_offsetOf? {k : Nat} (h : offsetOf? (formulaSource name) code = some k)
    (htexts : ∀ t, .text t ∈ scan code → ¬ (text t).Spells name) :
    ∃ pre post, scan code = pre ++ .formula name k :: post ∧ ∀ s ∈ pre, ¬ s.Spells name := by
  have hne : code ≠ [] := by
    rintro rfl
    cases h
  obtain ⟨front, rest, hcode, hreads, hrest⟩ := exists_reads_scan hne
  have hfound := h
  rw [hcode, offsetOf?_append_of_isUnread hname front hrest] at hfound
  have hinfix := isSome_offsetOf?_iff.mp (Option.isSome_iff_exists.mpr ⟨k, hfound⟩)
  obtain ⟨pre, s, post, hscan, hspells, hfirst⟩ :=
    exists_first ((hreads.infix_iff hparses hname).mp hinfix)
  cases s with
  | text t => exact absurd hspells (htexts t (by simp [hscan]))
  | formula body start =>
    obtain rfl := hspells
    cases h.symm.trans ((offsetOf?_eq_iff hparses hname hscan).mpr ⟨rfl, hfirst⟩)
    exact ⟨pre, post, hscan, hfirst⟩

omit hparses hname

/-- The source between two formulas is a slice of the code, and empty only if nothing is between
them. -/
theorem exists_slice? {mid : List Segment} {closing : Text} {stop : Nat}
    (hscan : scan code = pre ++ .formula body start :: (mid ++ .formula closing stop :: post)) :
    ∃ u, code.slice? (start + body.byteSize + 3) stop = some u ∧
      stop = start + body.byteSize + 3 + u.byteSize ∧ (u = [] ↔ mid = []) := by
  obtain ⟨front, rest, hcode, hreads, -⟩ := exists_reads_scan (ne_nil_of_scan hscan)
  rw [hscan] at hreads
  obtain ⟨before, back, rfl, -, hstart, -, hback⟩ := hreads.cut
  obtain ⟨u, behind, rfl, hu, hstop, -, -⟩ := hback.cut
  refine ⟨u, ?_, hstop, hu.eq_nil_iff⟩
  have hslice := slice?_append (before ++ formulaSource body) u
    (formulaSource closing ++ (behind ++ rest))
  rw [byteSize_append, byteSize_append, byteSize_append, byteSize_formulaSource] at hslice
  rw [hcode, hstop, hstart]
  simpa [Nat.add_assoc] using hslice

/-- Of two formulas the one at the smaller place stands in front. -/
theorem exists_between {front behind : List Segment} {closing : Text} {stop : Nat}
    (hscan : scan code = pre ++ .formula body start :: post)
    (hscan' : scan code = front ++ .formula closing stop :: behind) (hlt : start < stop) :
    ∃ mid, front = pre ++ .formula body start :: mid := by
  rcases List.append_eq_append_iff.mp (hscan.symm.trans hscan') with
    ⟨w, rfl, hrest⟩ | ⟨w, rfl, hrest⟩
  · rcases w with _ | ⟨s, mid⟩
    · cases (List.cons.inj hrest).1
      exact absurd hlt (Nat.lt_irrefl _)
    · exact ⟨mid, by rw [(List.cons.inj hrest).1]⟩
  · exfalso
    rcases w with _ | ⟨s, w⟩
    · cases (List.cons.inj hrest).1
      exact absurd hlt (Nat.lt_irrefl _)
    · obtain ⟨rfl, rfl⟩ := List.cons.inj hrest
      rw [List.append_assoc, List.cons_append] at hscan
      obtain ⟨u, -, hstart, -⟩ := exists_slice? hscan
      omega

end Segment

end SnippetEngine
