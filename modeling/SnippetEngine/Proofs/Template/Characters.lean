-- Template code read one character at a time. Tokens are cut without knowing whether a formula is
-- open, so a token such as `$$` may lie inside a formula. The scan over the tokens gives the same
-- segments as the scan over the characters all the same.
import SnippetEngine.Template.Segment

namespace SnippetEngine.Segment

/-! ## The character machine -/

inductive Mode
  | text
  /-- In text, behind a `$` at byte `start` that is not written yet. -/
  | dollar (start : Nat)
  | formula (start : Nat)
  deriving DecidableEq

/-- The segments of the characters from byte `offset` on. `pending` holds the characters of the
open segment, last one first. -/
def ofChars : Mode → (pending : Text) → (offset : Nat) → Text → List Segment
  | .text, pending, _, [] => ofPending pending
  | .dollar _, pending, _, [] => ofPending ('$' :: pending)
  | .formula _, _, _, [] => []
  | .text, pending, offset, c :: r =>
    if c = '$' then ofChars (.dollar offset) pending (offset + 1) r
    else ofChars .text (c :: pending) (offset + c.utf8Size) r
  | .dollar start, pending, offset, c :: r =>
    if c = '$' then ofChars .text ('$' :: pending) (offset + 1) r
    else if c = '{' then ofPending pending ++ ofChars (.formula start) [] (offset + 1) r
    else ofChars .text (c :: '$' :: pending) (offset + c.utf8Size) r
  | .formula start, pending, offset, c :: r =>
    if c = '}' then formula pending.reverse start :: ofChars .text [] (offset + 1) r
    else ofChars (.formula start) (c :: pending) (offset + c.utf8Size) r

theorem ofChars_text_append {u : Text} (hu : '$' ∉ u) (pending : Text) (offset : Nat) (r : Text) :
    ofChars .text pending offset (u ++ r) =
      ofChars .text (u.reverse ++ pending) (offset + u.byteSize) r := by
  induction u generalizing pending offset with
  | nil => rfl
  | cons c u ih =>
    have hc : c ≠ '$' := fun h => hu (h ▸ List.mem_cons_self)
    have hu' : '$' ∉ u := fun h => hu (List.mem_cons_of_mem _ h)
    rw [List.cons_append, ofChars, if_neg hc, ih hu']
    simp [Nat.add_assoc]

/-- What stands in a formula before its `}` is its body, whatever it is. -/
theorem ofChars_formula_append {u : Text} (hu : '}' ∉ u) (start : Nat) (pending : Text)
    (offset : Nat) (r : Text) :
    ofChars (.formula start) pending offset (u ++ r) =
      ofChars (.formula start) (u.reverse ++ pending) (offset + u.byteSize) r := by
  induction u generalizing pending offset with
  | nil => rfl
  | cons c u ih =>
    have hc : c ≠ '}' := fun h => hu (h ▸ List.mem_cons_self)
    have hu' : '}' ∉ u := fun h => hu (List.mem_cons_of_mem _ h)
    rw [List.cons_append, ofChars, if_neg hc, ih hu']
    simp [Nat.add_assoc]

/-- A formula is scanned back behind the text in front of it. -/
theorem ofChars_formula {body : Text} (h : '}' ∉ body) (pending : Text) (offset : Nat) (r : Text) :
    ofChars .text pending offset ('$' :: '{' :: (body ++ '}' :: r)) =
      ofPending pending ++
        formula body offset :: ofChars .text [] (offset + body.byteSize + 3) r := by
  have hstop : offset + 1 + 1 + body.byteSize + 1 = offset + body.byteSize + 3 := by omega
  rw [ofChars, if_pos rfl, ofChars, if_neg (by decide), if_pos rfl, ofChars_formula_append h,
    ofChars, if_pos rfl, hstop]
  simp

theorem ofChars_dollar {start offset : Nat} {pending r : Text} (hd : r.head? ≠ some '$')
    (hb : r.head? ≠ some '{') :
    ofChars (.dollar start) pending offset r = ofChars .text ('$' :: pending) offset r := by
  cases r with
  | nil => rfl
  | cons c r =>
    have hcd : c ≠ '$' := fun h => hd (h ▸ rfl)
    have hcb : c ≠ '{' := fun h => hb (h ▸ rfl)
    simp only [ofChars, if_neg hcd, if_neg hcb]

/-! ## Tokens and characters -/

/-- Every way to cut the first token. -/
theorem next_cases {c : Char} {r rest : Text} {t : Token} (h : Token.next c r = (t, rest)) :
    (t = .escapedDollar ∧ c = '$' ∧ r = '$' :: rest) ∨
    (t = .formulaOpen ∧ c = '$' ∧ r = '{' :: rest) ∨
    (t = .dollar ∧ c = '$' ∧ r = rest ∧ r.head? ≠ some '$' ∧ r.head? ≠ some '{') ∨
    (t = .braceClose ∧ c = '}' ∧ r = rest) ∨
    ∃ u, t = .run u ∧ c :: r = u ++ rest ∧ '$' ∉ u ∧ '}' ∉ u := by
  revert h
  fun_cases Token.next c r
  case case1 => rintro ⟨⟩; simp
  case case2 => rintro ⟨⟩; simp
  case case3 hd hb =>
    rintro ⟨⟩
    refine Or.inr (Or.inr (Or.inl ⟨rfl, rfl, rfl, fun he => ?_, fun he => ?_⟩))
    · obtain ⟨r', rfl⟩ := List.head?_eq_some_iff.mp he
      exact hd r' rfl
    · obtain ⟨r', rfl⟩ := List.head?_eq_some_iff.mp he
      exact hb r' rfl
  case case4 => rintro ⟨⟩; simp
  case case5 hd hb _ _ =>
    rintro ⟨⟩
    have hplain : ∀ x ∈ c :: r.takeWhile Token.isPlain, x ≠ '$' ∧ x ≠ '}' := by
      intro x hx
      rcases List.mem_cons.mp hx with rfl | hx
      · exact ⟨hd, hb⟩
      · have := List.all_eq_true.mp List.all_takeWhile x hx
        simpa [Token.isPlain] using this
    refine Or.inr (Or.inr (Or.inr (Or.inr ⟨_, rfl, ?_, ?_, ?_⟩)))
    · rw [List.cons_append, List.takeWhile_append_dropWhile]
    · exact fun hx => (hplain _ hx).1 rfl
    · exact fun hx => (hplain _ hx).2 rfl

/-- The scan over the tokens and the scan over the characters give the same segments, in both
regions: wherever a formula ends, a token ends. -/
theorem ofTokens_ofText (code : Text) :
    (∀ pending offset,
      ofTokens .text pending offset (Token.ofText code) = ofChars .text pending offset code) ∧
    ∀ start pending offset,
      ofTokens (.formula start) pending offset (Token.ofText code) =
        ofChars (.formula start) pending offset code := by
  fun_induction Token.ofText code with
  | case1 => exact ⟨fun _ _ => rfl, fun _ _ _ => rfl⟩
  | case2 c r ih =>
    rcases hn : Token.next c r with ⟨t, rest⟩
    rw [hn] at ih
    obtain ⟨iht, ihf⟩ := ih
    rcases next_cases hn with ⟨rfl, rfl, rfl⟩ | ⟨rfl, rfl, rfl⟩ | ⟨rfl, rfl, rfl, hd, hb⟩ |
      ⟨rfl, rfl, rfl⟩ | ⟨u, rfl, hcode, hd, hb⟩
    · refine ⟨fun pending offset => ?_, fun start pending offset => ?_⟩
      · simp [ofTokens, ofChars, iht, Nat.add_assoc]
      · simp [ofTokens, ofChars, ihf, Token.lexeme, Nat.add_assoc]
    · refine ⟨fun pending offset => ?_, fun start pending offset => ?_⟩
      · simp [ofTokens, ofChars, ihf, Nat.add_assoc]
      · simp [ofTokens, ofChars, ihf, Token.lexeme, Nat.add_assoc]
    · refine ⟨fun pending offset => ?_, fun start pending offset => ?_⟩
      · simp [ofTokens, ofChars, iht, Token.lexeme, ofChars_dollar hd hb,
          show '$'.utf8Size = 1 from rfl]
      · simp [ofTokens, ofChars, ihf, Token.lexeme]
    · refine ⟨fun pending offset => ?_, fun start pending offset => ?_⟩
      · simp [ofTokens, ofChars, iht, Token.lexeme]
      · simp [ofTokens, ofChars, iht]
    · refine ⟨fun pending offset => ?_, fun start pending offset => ?_⟩
      · rw [hcode, ofChars_text_append hd, ofTokens, iht]
        all_goals simp [Token.lexeme]
      · rw [hcode, ofChars_formula_append hb, ofTokens, ihf]
        all_goals simp [Token.lexeme]

def scanChars (code : Text) : List Segment :=
  if code.isEmpty then [text []] else ofChars .text [] 0 code

theorem scan_eq_scanChars (code : Text) : scan code = scanChars code := by
  unfold scan scanChars
  rw [(ofTokens_ofText code).1]

end SnippetEngine.Segment
