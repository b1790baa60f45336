-- Template code laid out as its segments. Each segment has a stretch of the code as its source, one
-- right behind the other, and a formula knows the byte at which its own begins. What is left over
-- at the end is a formula that nothing closes.
import SnippetEngine.Proofs.Template.Characters

namespace SnippetEngine.Segment

open Text

/-! ## Literal text -/

/-- The source of a text, with the escapes it is written with, and the text it stands for. -/
inductive Resolves : (source text : Text) → Prop
  | nil : Resolves [] []
  | plain {c : Char} {u t : Text} (hc : c ≠ '$') (h : Resolves u t) : Resolves (c :: u) (c :: t)
  | escaped {u t : Text} (h : Resolves u t) : Resolves ('$' :: '$' :: u) ('$' :: t)
  /-- A `$` that neither escapes nor opens anything. -/
  | lone {u t : Text} (hd : u.head? ≠ some '$') (hb : u.head? ≠ some '{') (h : Resolves u t) :
      Resolves ('$' :: u) ('$' :: t)

namespace Resolves

variable {u t w : Text}

theorem eq_nil_iff (h : Resolves u t) : u = [] ↔ t = [] := by
  cases h <;> simp

/-- What has no `$` is written as it is. -/
theorem prefix_iff (h : Resolves u t) (hw : '$' ∉ w) : w <+: u ↔ w <+: t := by
  induction h generalizing w with
  | nil => rfl
  | plain hc h ih =>
    rcases w with _ | ⟨d, w⟩
    · simp
    · rw [List.cons_prefix_cons, List.cons_prefix_cons, ih fun hm => hw (List.mem_cons_of_mem d hm)]
  | escaped | lone =>
    rcases w with _ | ⟨d, w⟩
    · simp
    · have hd : d ≠ '$' := fun hd => hw (hd ▸ List.mem_cons_self)
      simp [List.cons_prefix_cons, hd]

/-- A text reads `${` exactly where its source does: of the `$` there, the first in the source
escapes the second, which is the one that the text keeps. -/
theorem infix_iff (h : Resolves u t) (hw : '$' ∉ w) :
    '$' :: '{' :: w <:+: u ↔ '$' :: '{' :: w <:+: t := by
  have hbrace : '$' ∉ '{' :: w := by simpa using hw
  induction h with
  | nil => rfl
  | @plain c u t hc h ih =>
    have hstart : ∀ r, ¬ '$' :: '{' :: w <+: c :: r := by simp [List.cons_prefix_cons, Ne.symm hc]
    rw [List.infix_cons_iff, List.infix_cons_iff]
    exact or_congr (iff_of_false (hstart u) (hstart t)) ih
  | @escaped u t h ih =>
    have hfirst : ¬ '$' :: '{' :: w <+: '$' :: '$' :: u := by simp [List.cons_prefix_cons]
    rw [List.infix_cons_iff, or_iff_right hfirst, List.infix_cons_iff, List.infix_cons_iff,
      List.cons_prefix_cons, List.cons_prefix_cons, h.prefix_iff hbrace]
    exact or_congr_right ih
  | @lone u t hd hb h ih =>
    rw [List.infix_cons_iff, List.infix_cons_iff, List.cons_prefix_cons, List.cons_prefix_cons,
      h.prefix_iff hbrace]
    exact or_congr_right ih

end Resolves

/-- The segments begin with the text that the code begins with, behind what is pending, and go on
with the formula behind it. -/
def BeginsWithText (pending : Text) (offset : Nat) (code : Text) (segments : List Segment) : Prop :=
  ∃ u t r, code = u ++ r ∧ Resolves u t ∧ (r = [] ∨ ∃ r', r = '$' :: '{' :: r') ∧
    segments = ofPending (t.reverse ++ pending) ++ ofChars .text [] (offset + u.byteSize) r

namespace BeginsWithText

variable {pending code : Text} {offset : Nat} {segments : List Segment} {c : Char}

theorem plain (hc : c ≠ '$')
    (h : BeginsWithText (c :: pending) (offset + c.utf8Size) code segments) :
    BeginsWithText pending offset (c :: code) segments := by
  obtain ⟨u, t, r, rfl, hresolves, hnext, rfl⟩ := h
  refine ⟨c :: u, c :: t, r, rfl, .plain hc hresolves, hnext, ?_⟩
  simp [Nat.add_assoc]

theorem escaped (h : BeginsWithText ('$' :: pending) (offset + 1 + 1) code segments) :
    BeginsWithText pending offset ('$' :: '$' :: code) segments := by
  obtain ⟨u, t, r, rfl, hresolves, hnext, rfl⟩ := h
  refine ⟨'$' :: '$' :: u, '$' :: t, r, rfl, .escaped hresolves, hnext, ?_⟩
  have hplace : offset + byteSize ('$' :: '$' :: u) = offset + 1 + 1 + u.byteSize := by
    rw [byteSize_cons, byteSize_cons, Nat.add_assoc, Nat.add_assoc]
    rfl
  rw [hplace]
  simp

theorem lone (hd : c ≠ '$') (hb : c ≠ '{')
    (h : BeginsWithText (c :: '$' :: pending) (offset + 1 + c.utf8Size) code segments) :
    BeginsWithText pending offset ('$' :: c :: code) segments := by
  obtain ⟨u, t, r, rfl, hresolves, hnext, rfl⟩ := h
  refine ⟨'$' :: c :: u, '$' :: c :: t, r, rfl, .lone (by simpa using hd) (by simpa using hb)
    (.plain hd hresolves), hnext, ?_⟩
  simp [Nat.add_assoc, show '$'.utf8Size = 1 from rfl]

end BeginsWithText

/-- What the segments begin with in each mode. -/
def Begins : Mode → (pending : Text) → (offset : Nat) → (code : Text) → List Segment → Prop
  | .text, pending, offset, code, segments => BeginsWithText pending offset code segments
  | .dollar start, pending, offset, code, segments =>
    offset = start + 1 → BeginsWithText pending start ('$' :: code) segments
  | .formula _, _, _, _, _ => True

theorem begins_ofChars (mode : Mode) (pending : Text) (offset : Nat) (code : Text) :
    Begins mode pending offset code (ofChars mode pending offset code) := by
  fun_induction ofChars mode pending offset code with
  | case1 => exact ⟨[], [], [], rfl, .nil, .inl rfl, by simp [ofChars, ofPending]⟩
  | case2 =>
    intro _
    exact ⟨['$'], ['$'], [], rfl, .lone (by simp) (by simp) .nil, .inl rfl, by
      simp [ofChars, ofPending]⟩
  | case3 => exact trivial
  | case4 pending offset r ih => exact ih rfl
  | case5 _ _ _ _ hc ih => exact ih.plain hc
  | case6 start pending offset r ih =>
    rintro rfl
    exact ih.escaped
  | case7 start pending offset r _ ih =>
    rintro rfl
    refine ⟨[], [], _, rfl, .nil, .inr ⟨r, rfl⟩, ?_⟩
    rw [ofChars, if_pos rfl, ofChars, if_neg (by decide), if_pos rfl]
    simp [ofPending]
  | case8 start pending offset c r hd hb ih =>
    rintro rfl
    exact ih.lone hd hb
  | case9 => exact trivial
  | case10 => exact trivial

/-! ## Segments and their sources -/

/-- A formula as it is written. -/
def formulaSource (body : Text) : Text := '$' :: '{' :: (body ++ ['}'])

theorem formulaSource_ne_nil (body : Text) : formulaSource body ≠ [] := List.cons_ne_nil _ _

theorem byteSize_formulaSource (body : Text) :
    (formulaSource body).byteSize = body.byteSize + 3 := by
  simp [formulaSource, show '$'.utf8Size = 1 from rfl, show '{'.utf8Size = 1 from rfl,
    show '}'.utf8Size = 1 from rfl]
  omega

/-- The code from byte `offset` on is the sources of these segments. -/
inductive Reads : (offset : Nat) → (code : Text) → List Segment → Prop
  | nil (offset : Nat) : Reads offset [] []
  | text {offset : Nat} {u t r : Text} {segments : List Segment} (hresolves : Resolves u t)
      (hne : t ≠ []) (hnext : r = [] ∨ ∃ r', r = '$' :: '{' :: r')
      (hrest : Reads (offset + u.byteSize) r segments) : Reads offset (u ++ r) (text t :: segments)
  | formula {offset : Nat} {body r : Text} {segments : List Segment} (hbody : '}' ∉ body)
      (hrest : Reads (offset + body.byteSize + 3) r segments) :
      Reads offset (formulaSource body ++ r) (formula body offset :: segments)

namespace Reads

variable {offset start : Nat} {code body : Text} {segments pre post : List Segment}

theorem eq_nil_iff (h : Reads offset code segments) : code = [] ↔ segments = [] := by
  cases h with
  | nil => simp
  | text hresolves hne => simp [hresolves.eq_nil_iff, hne]
  | formula => simp [formulaSource]

/-- A pending text in front of what comes next. -/
theorem ofPending {u t r : Text} (hresolves : Resolves u t)
    (hnext : r = [] ∨ ∃ r', r = '$' :: '{' :: r') (h : Reads (offset + u.byteSize) r segments) :
    Reads offset (u ++ r) (Segment.ofPending t.reverse ++ segments) := by
  by_cases hne : t = []
  · subst hne
    obtain rfl := hresolves.eq_nil_iff.mpr rfl
    exact h
  · obtain ⟨c, v, hv⟩ := List.exists_cons_of_ne_nil (List.reverse_ne_nil_iff.mpr hne)
    have hpending : Segment.ofPending t.reverse = [.text t] := by
      rw [hv, Segment.ofPending, ← hv, List.reverse_reverse]
    rw [hpending]
    exact .text hresolves hne hnext h

/-- The code in front of a formula, and the code behind it. -/
theorem cut (h : Reads offset code (pre ++ .formula body start :: post)) :
    ∃ front back, code = front ++ (formulaSource body ++ back) ∧ Reads offset front pre ∧
      start = offset + front.byteSize ∧ '}' ∉ body ∧
      Reads (start + body.byteSize + 3) back post := by
  induction pre generalizing offset code with
  | nil =>
    cases h with
    | formula hbody hrest => exact ⟨[], _, rfl, .nil _, rfl, hbody, hrest⟩
  | cons s pre ih =>
    cases h with
    | @text _ u t r _ hresolves hne hnext hrest =>
      obtain ⟨front, back, rfl, hfront, hstart, hbody, hback⟩ := ih hrest
      refine ⟨u ++ front, back, by simp, .text hresolves hne ?_ hfront, ?_, hbody, hback⟩
      · -- what comes behind the front begins with `$`
        rcases front with _ | ⟨a, _ | ⟨b, front⟩⟩
        · exact .inl rfl
        · simp [formulaSource] at hnext
        · exact .inr ⟨front, by simpa using hnext⟩
      · rw [hstart, byteSize_append, Nat.add_assoc]
    | @formula _ body' r _ hbody' hrest =>
      obtain ⟨front, back, rfl, hfront, hstart, hbody, hback⟩ := ih hrest
      refine ⟨formulaSource body' ++ front, back, by simp, .formula hbody' hfront, ?_, hbody, hback⟩
      rw [hstart, byteSize_append, byteSize_formulaSource]
      omega

end Reads

/-- The end of the code, or a formula that is opened there and not closed. -/
def IsUnread (t : Text) : Prop := t = [] ∨ ∃ r, t = '$' :: '{' :: r ∧ '}' ∉ r

theorem ofChars_of_isUnread {t : Text} (h : IsUnread t) (offset : Nat) :
    ofChars .text [] offset t = [] := by
  rcases h with rfl | ⟨r, rfl, hr⟩
  · rfl
  · have hopen := ofChars_formula_append hr offset [] (offset + 1 + 1) []
    rw [List.append_nil, ofChars] at hopen
    rw [ofChars, if_pos rfl, ofChars, if_neg (by decide), if_pos rfl, hopen]
    rfl

/-- All code but a formula that is left open at its end is read. -/
theorem exists_reads_ofChars (code : Text) (offset : Nat) : ∃ front rest, code = front ++ rest ∧
    Reads offset front (ofChars .text [] offset code) ∧ IsUnread rest := by
  induction hlength : code.length using Nat.strongRecOn generalizing code offset with
  | _ n ih =>
    subst hlength
    obtain ⟨u, t, r, rfl, hresolves, hnext, hread⟩ := begins_ofChars .text [] offset code
    rw [List.append_nil] at hread
    rw [hread]
    by_cases hrest : IsUnread r
    · have hfront : Reads offset (u ++ []) (Segment.ofPending t.reverse ++ []) :=
        .ofPending hresolves (.inl rfl) (.nil _)
      rw [ofChars_of_isUnread hrest]
      exact ⟨u ++ [], r, by simp, hfront, hrest⟩
    · obtain ⟨r, rfl⟩ := hnext.resolve_left fun h => hrest (.inl h)
      have hbrace : '}' ∈ r := Decidable.byContradiction fun h => hrest (.inr ⟨r, rfl, h⟩)
      obtain ⟨body, back, rfl, hbody⟩ := List.eq_append_cons_of_mem hbrace
      rw [ofChars_formula hbody]
      obtain ⟨front, rest, rfl, hfront, hrest⟩ := ih back.length (by simp; omega) back
        (offset + u.byteSize + byteSize body + 3) rfl
      refine ⟨u ++ (formulaSource body ++ front), rest, by simp [formulaSource], ?_, hrest⟩
      exact .ofPending hresolves (.inr ⟨_, rfl⟩) (.formula hbody hfront)

theorem exists_reads_scan {code : Text} (h : code ≠ []) :
    ∃ front rest, code = front ++ rest ∧ Reads 0 front (scan code) ∧ IsUnread rest := by
  rw [scan_eq_scanChars, scanChars, if_neg (by simpa using h)]
  exact exists_reads_ofChars code 0

end SnippetEngine.Segment
