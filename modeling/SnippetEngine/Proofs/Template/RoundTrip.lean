-- Writing templates down and compiling them. Canonical pieces are compiled back from what is
-- written, and whatever code compiles to is canonical. So each template has one written form,
-- whatever code it was compiled from.
import Mathlib.Data.List.Chain
import SnippetEngine.Proofs.Outcome
import SnippetEngine.Proofs.Template.Characters
import SnippetEngine.Proofs.Template.Printing

namespace SnippetEngine

open Text

/-! ## Canonical pieces -/

namespace Piece

def isText : Piece → Bool
  | text _ => true
  | formula _ => false

def IsCanonical : Piece → Prop
  | text t => t ≠ []
  | formula f => f.IsCanonical

/-- Text with each `$` doubled. -/
def escape (t : Text) : Text := t.flatMap fun c => if c = '$' then ['$', '$'] else [c]

def print : Piece → Text
  | text t => escape t
  | formula f => '$' :: '{' :: (f.print ++ ['}'])

theorem IsCanonical.print_ne_nil {p : Piece} (h : p.IsCanonical) : p.print ≠ [] := by
  cases p with
  | text t =>
    obtain ⟨c, r, rfl⟩ := List.exists_cons_of_ne_nil h
    by_cases hc : c = '$' <;> simp [print, escape, hc]
  | formula f => simp [print]

end Piece

namespace Snippet

/-- Pieces that stand for themselves: the empty template, or pieces of which none is an empty
text and no two texts stand side by side. -/
def Canonical (ps : List Piece) : Prop :=
  ps = [.text []] ∨
    ps ≠ [] ∧ (∀ p ∈ ps, p.IsCanonical) ∧ ps.IsChain fun p q => ¬ (p.isText ∧ q.isText)

/-- The code that the pieces are written as. -/
def print (ps : List Piece) : Text := ps.flatMap Piece.print

end Snippet

/-! ## Scanning what is written -/

namespace Segment

/-- A text is scanned back, with each doubled `$` as one. -/
theorem ofChars_escape (t pending : Text) (offset : Nat) (r : Text) :
    ∃ offset', ofChars .text pending offset (Piece.escape t ++ r) =
      ofChars .text (t.reverse ++ pending) offset' r := by
  induction t generalizing pending offset with
  | nil => exact ⟨offset, rfl⟩
  | cons c t ih =>
    by_cases hc : c = '$'
    · subst hc
      obtain ⟨o, ho⟩ := ih ('$' :: pending) (offset + 1 + 1)
      refine ⟨o, ?_⟩
      rw [List.reverse_cons, List.append_assoc, List.singleton_append, ← ho]
      simp [Piece.escape, ofChars]
    · obtain ⟨o, ho⟩ := ih (c :: pending) (offset + c.utf8Size)
      refine ⟨o, ?_⟩
      rw [List.reverse_cons, List.append_assoc, List.singleton_append, ← ho]
      simp [Piece.escape, ofChars, hc]

end Segment

namespace Snippet

/-- The piece of the pending characters, if there are any. -/
def pendingPieces : Text → List Piece
  | [] => []
  | c :: r => [.text (c :: r).reverse]

theorem pendingPieces_eq {pending : Text} (h : pending ≠ []) :
    pendingPieces pending = [.text pending.reverse] := by
  obtain ⟨c, r, rfl⟩ := List.exists_cons_of_ne_nil h
  rfl

theorem mapM_ofPending (id pending : Text) :
    (Segment.ofPending pending).mapM (pieceOf id) = .ok (pendingPieces pending) := by
  cases pending <;> rfl

/-- Canonical pieces behind pending text are read back, if no text comes right behind it. -/
theorem mapM_ofChars_print (id : Text) {ps : List Piece} (hps : ∀ p ∈ ps, p.IsCanonical)
    (hchain : ps.IsChain fun p q => ¬ (p.isText ∧ q.isText)) {pending : Text}
    (hpending : pending ≠ [] → ∀ p ∈ ps.head?, p.isText = false) (offset : Nat) :
    (Segment.ofChars .text pending offset (print ps)).mapM (pieceOf id) =
      .ok (pendingPieces pending ++ ps) := by
  induction ps generalizing pending offset with
  | nil =>
    rw [List.append_nil]
    exact mapM_ofPending id pending
  | cons p ps ih =>
    obtain ⟨hnext, htail⟩ := List.isChain_cons.mp hchain
    have hp := hps p List.mem_cons_self
    have htailps : ∀ q ∈ ps, q.IsCanonical := fun q hq => hps q (List.mem_cons_of_mem _ hq)
    cases p with
    | text t =>
      have hnil : pending = [] := by
        by_contra hne
        exact absurd (hpending hne _ rfl) (by simp [Piece.isText])
      subst hnil
      obtain ⟨o, ho⟩ := Segment.ofChars_escape t [] offset (print ps)
      have hne : t.reverse ++ [] ≠ [] := by
        rw [List.append_nil]
        exact fun h => hp (List.reverse_eq_nil_iff.mp h)
      have hfirst : t.reverse ++ [] ≠ [] → ∀ q ∈ ps.head?, q.isText = false := by
        intro _ q hq
        simpa [Piece.isText] using hnext q hq
      have hrest := ih htailps htail hfirst o
      rw [print, List.flatMap_cons, Piece.print, ← print, ho, hrest, pendingPieces_eq hne]
      simp [pendingPieces]
    | formula f =>
      have ho := Segment.ofChars_formula hp.brace_not_mem_print pending offset (print ps)
      have hrest := ih htailps htail (fun hne => absurd rfl hne)
        (offset + Text.byteSize f.print + 3)
      have hcode : print (.formula f :: ps) = '$' :: '{' :: (f.print ++ '}' :: print ps) := by
        simp [print, Piece.print]
      have hpiece : pieceOf id (.formula f.print offset) = .ok (.formula f) := by
        rw [pieceOf, hp.parse_print]
      have hmap := mapM_cons_eq_ok.mpr ⟨_, _, hpiece, hrest, rfl⟩
      rw [hcode, ho, List.mapM_append, mapM_ofPending, hmap]
      rfl

/-! ## What code compiles to -/

end Snippet

namespace Segment

def isText : Segment → Bool
  | text _ => true
  | formula .. => false

/-- A text that is not empty, or a formula body without the brace that ends it. -/
def IsClean : Segment → Prop
  | text t => t ≠ []
  | formula body _ => '}' ∉ body

/-- Clean segments with no two texts side by side. -/
def Alternating (segments : List Segment) : Prop :=
  (∀ s ∈ segments, s.IsClean) ∧ segments.IsChain fun p q => ¬ (p.isText ∧ q.isText)

theorem alternating_ofPending_append {segments : List Segment} (h : Alternating segments)
    (hhead : ∀ s ∈ segments.head?, s.isText = false) (pending : Text) :
    Alternating (ofPending pending ++ segments) := by
  cases pending with
  | nil => exact h
  | cons c r =>
    refine ⟨fun s hs => ?_, ?_⟩
    · rcases List.mem_cons.mp hs with rfl | hs
      · simp [IsClean]
      · exact h.1 s hs
    · refine List.isChain_cons.mpr ⟨fun s hs => ?_, h.2⟩
      simp [hhead s hs]

theorem alternating_formula_cons {segments : List Segment} (h : Alternating segments)
    {body : Text} (hbody : '}' ∉ body) (start : Nat) :
    Alternating (formula body start :: segments) := by
  refine ⟨fun s hs => ?_, List.isChain_cons.mpr ⟨fun s _ => by simp [isText], h.2⟩⟩
  rcases List.mem_cons.mp hs with rfl | hs
  · exact hbody
  · exact h.1 s hs

/-- What each mode promises of the segments. In a formula the first one is that formula. -/
def Promises : Mode → (pending : Text) → List Segment → Prop
  | .formula _, pending, segments =>
    '}' ∉ pending → Alternating segments ∧ ∀ s ∈ segments.head?, s.isText = false
  | _, _, segments => Alternating segments

theorem promises_ofChars (mode : Mode) (pending : Text) (offset : Nat) (code : Text) :
    Promises mode pending (ofChars mode pending offset code) := by
  have hnil : Alternating [] := ⟨by simp, List.isChain_nil⟩
  have hlast : ∀ pending, Alternating (ofPending pending) := by
    intro pending
    have := alternating_ofPending_append hnil (by simp) pending
    rwa [List.append_nil] at this
  fun_induction ofChars mode pending offset code with
  | case1 => exact hlast _
  | case2 => exact hlast _
  | case3 => exact fun _ => ⟨hnil, by simp⟩
  | case4 _ _ _ ih => exact ih
  | case5 _ _ _ _ _ ih => exact ih
  | case6 _ _ _ _ ih => exact ih
  | case7 _ pending _ _ _ ih =>
    obtain ⟨halt, hhead⟩ := ih (by simp)
    exact alternating_ofPending_append halt hhead pending
  | case8 _ _ _ _ _ _ _ ih => exact ih
  | case9 start pending _ _ ih =>
    intro hbrace
    refine ⟨alternating_formula_cons ih (by simpa using hbrace) start, ?_⟩
    simp [isText]
  | case10 _ _ _ c _ hc ih =>
    intro hbrace
    exact ih (by simp [hbrace, Ne.symm hc])

/-- The segments of code that is not empty. -/
theorem alternating_scan {code : Text} (h : code ≠ []) : Alternating (scan code) := by
  rw [scan_eq_scanChars, scanChars]
  simp only [List.isEmpty_iff, h, if_false]
  exact promises_ofChars .text [] 0 code

end Segment

namespace Snippet

theorem of_pieceOf_formula {id body : Text} {offset : Nat} {p : Piece}
    (h : pieceOf id (.formula body offset) = .ok p) :
    ∃ f, Formula.parse body = .ok f ∧ p = .formula f := by
  rw [pieceOf] at h
  rcases hf : Formula.parse body with fault | f
  · rw [hf] at h
    cases h
  · rw [hf] at h
    cases h
    exact ⟨f, rfl, rfl⟩

theorem isText_of_pieceOf {id : Text} {s : Segment} {p : Piece} (h : pieceOf id s = .ok p) :
    p.isText = s.isText := by
  cases s with
  | text t =>
    cases h
    rfl
  | formula body offset =>
    obtain ⟨f, _, rfl⟩ := of_pieceOf_formula h
    rfl

theorem isCanonical_of_pieceOf {id : Text} {s : Segment} {p : Piece} (hs : s.IsClean)
    (h : pieceOf id s = .ok p) : p.IsCanonical := by
  cases s with
  | text t =>
    cases h
    exact hs
  | formula body offset =>
    obtain ⟨f, hf, rfl⟩ := of_pieceOf_formula h
    exact Formula.isCanonical_of_parse hs hf

/-- The pieces of alternating segments: none is an empty text, every formula can be written down,
and no two texts stand side by side. -/
theorem canonical_of_alternating {id : Text} {segments : List Segment} {ps : List Piece}
    (h : Segment.Alternating segments) (hmap : segments.mapM (pieceOf id) = .ok ps) :
    (∀ p ∈ ps, p.IsCanonical) ∧ ps.IsChain fun p q => ¬ (p.isText ∧ q.isText) := by
  obtain ⟨hclean, hchain⟩ := h
  induction segments generalizing ps with
  | nil =>
    cases hmap
    exact ⟨by simp, List.isChain_nil⟩
  | cons s segments ih =>
    obtain ⟨p, ps', hp, hrest, rfl⟩ := mapM_cons_eq_ok.mp hmap
    obtain ⟨hnext, htail⟩ := List.isChain_cons.mp hchain
    obtain ⟨hcanonical, hchain'⟩ := ih hrest (fun x hx => hclean x (List.mem_cons_of_mem _ hx)) htail
    refine ⟨fun q hq => ?_, List.isChain_cons.mpr ⟨fun q hq => ?_, hchain'⟩⟩
    · rcases List.mem_cons.mp hq with rfl | hq
      · exact isCanonical_of_pieceOf (hclean s List.mem_cons_self) hp
      · exact hcanonical q hq
    · cases segments with
      | nil =>
        cases hrest
        cases hq
      | cons s' segments =>
        obtain ⟨p', ps'', hp', _, rfl⟩ := mapM_cons_eq_ok.mp hrest
        cases hq
        rw [isText_of_pieceOf hp, isText_of_pieceOf hp']
        exact hnext s' rfl

/-- Pieces that are written down in canonical form are read back. -/
theorem piecesOf_print (id : Text) {ps : List Piece} (h : Canonical ps) :
    piecesOf id (print ps) = .ok ps := by
  rcases h with rfl | ⟨hne, hps, hchain⟩
  · rfl
  · have hcode : print ps ≠ [] := by
      obtain ⟨p, ps, rfl⟩ := List.exists_cons_of_ne_nil hne
      have hp := (hps p List.mem_cons_self).print_ne_nil
      simp [print, hp]
    have hread := mapM_ofChars_print id hps hchain (fun hnil => absurd rfl hnil) 0
    unfold piecesOf
    rw [Segment.scan_eq_scanChars, Segment.scanChars]
    simp only [List.isEmpty_iff, hcode, if_false]
    exact hread

/-- What code is compiled to is canonical, unless there is nothing. -/
theorem canonical_of_piecesOf {id code : Text} {ps : List Piece} (h : piecesOf id code = .ok ps)
    (hne : ps ≠ []) : Canonical ps := by
  by_cases hcode : code = []
  · subst hcode
    cases h
    exact Or.inl rfl
  · obtain ⟨hps, hchain⟩ := canonical_of_alternating (Segment.alternating_scan hcode) h
    exact Or.inr ⟨hne, hps, hchain⟩

theorem compile_eq_ok {e : SharedEffect} {snippet : Snippet} :
    compile e = .ok snippet ↔
      ∃ ps, piecesOf e.effect.id e.effect.code = .ok ps ∧ snippet = ps.map (SnippetNode.mk e) := by
  unfold compile
  cases piecesOf e.effect.id e.effect.code <;> simp [Except.map, eq_comm]

/-! ## The round trip -/

/-- Canonical pieces come back from the code that they are written as, and the pieces that any
code is compiled to, if there are any, are canonical: written down and compiled again, they come
back as well. -/
theorem written_snippets_are_read_back :
    (∀ (e : SharedEffect) (ps : List Piece), Canonical ps → e.effect.code = print ps →
      compile e = .ok (ps.map (SnippetNode.mk e))) ∧
    ∀ (e : SharedEffect) (snippet : Snippet), compile e = .ok snippet → snippet ≠ [] →
      Canonical (snippet.map (·.piece)) ∧
      ∀ again : SharedEffect, again.effect.code = print (snippet.map (·.piece)) →
        compile again = .ok ((snippet.map (·.piece)).map (SnippetNode.mk again)) := by
  have hwritten : ∀ (e : SharedEffect) (ps : List Piece), Canonical ps →
      e.effect.code = print ps → compile e = .ok (ps.map (SnippetNode.mk e)) := by
    intro e ps hps hcode
    refine compile_eq_ok.mpr ⟨ps, ?_, rfl⟩
    rw [hcode]
    exact piecesOf_print e.effect.id hps
  refine ⟨hwritten, fun e snippet hsnippet hne => ?_⟩
  obtain ⟨ps, hps, rfl⟩ := compile_eq_ok.mp hsnippet
  have hpieces : (ps.map (SnippetNode.mk e)).map (·.piece) = ps := by
    rw [List.map_map]
    exact List.map_id ps
  have hcanonical := canonical_of_piecesOf hps (by simpa using hne)
  rw [hpieces]
  exact ⟨hcanonical, fun again hcode => hwritten again ps hcanonical hcode⟩

/-- A text that ends with `$` in front of a formula, a capture, blanks and `$` in arguments, two
formulas side by side, and braces in text. -/
theorem written_snippet_with_dollars_and_braces :
    let ps : List Piece := [.text "a$".toList,
      .formula ⟨"f".toList, [" x ".toList, "$$".toList, []], some "v".toList⟩,
      .formula ⟨"g".toList, [], none⟩, .text "\x7b\x7d".toList]
    let e : SharedEffect :=
      ⟨0, { id := [], code := "a$$$\x7bv:f( x ,$$,)\x7d$\x7bg\x7d\x7b\x7d".toList }⟩
    Canonical ps ∧ e.effect.code = print ps ∧ compile e = .ok (ps.map (SnippetNode.mk e)) ∧
      Canonical ((ps.map (SnippetNode.mk e)).map (·.piece)) := by
  intro ps e
  have hps : Canonical ps := by
    refine Or.inr ⟨by simp [ps], fun p hp => ?_, by simp [ps, Piece.isText]⟩
    simp only [ps, List.mem_cons, List.not_mem_nil, or_false] at hp
    rcases hp with rfl | rfl | rfl | rfl
    · simp [Piece.IsCanonical]
    · exact ⟨by decide, by simp; decide, by simp [Formula.argumentEnds], by simp⟩
    · exact ⟨by decide, by simp, by simp, by simp⟩
    · simp [Piece.IsCanonical]
  have hcode : e.effect.code = print ps := by decide
  have hcompile := written_snippets_are_read_back.1 e ps hps hcode
  exact ⟨hps, hcode, hcompile, (written_snippets_are_read_back.2 e _ hcompile (by simp [ps])).1⟩

end Snippet

end SnippetEngine
