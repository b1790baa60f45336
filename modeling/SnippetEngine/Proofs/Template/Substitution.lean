-- Templates that only substitute: literal texts, and references to the parameters of their effect.
-- What such a template is compiled to has the texts joined, and fills in to the same text.
import SnippetEngine.Bindings
import SnippetEngine.Proofs.Template.RoundTrip

namespace SnippetEngine

open Text

/-! ## Parts -/

/-- A part of a template: a text that stands for itself, or the name of a parameter. -/
inductive Part
  | text (text : Text)
  | reference (name : Text)
  deriving DecidableEq

namespace Part

/-- The piece that the part is written as: a text with each `$` doubled, or `${name}`. -/
def piece : Part → Piece
  | text t => .text t
  | reference name => .formula ⟨name, [], none⟩

def filled (value : Text → Text) : Part → Text
  | text t => t
  | reference name => value name

end Part

/-- The code of the effect is written as the parts, and the parts refer to its parameters, which
are different identifiers. -/
structure Effect.IsWrittenAs (e : Effect) (ps : List Part) : Prop where
  areIdentifiers : ∀ p ∈ e.parameters, isIdentifier p.name = true
  areDistinct : (e.parameters.map (·.name)).Nodup
  code : e.code = Snippet.print (ps.map Part.piece)
  areParameters : ∀ name, .reference name ∈ ps → name ∈ e.parameters.map (·.name)

namespace Effect.IsWrittenAs

variable {e : Effect} {ps : List Part}

theorem isIdentifier_reference (h : e.IsWrittenAs ps) {name : Text}
    (hname : .reference name ∈ ps) : isIdentifier name = true := by
  obtain ⟨p, hp, rfl⟩ := List.mem_map.mp (h.areParameters name hname)
  exact h.areIdentifiers p hp

end Effect.IsWrittenAs

/-! ## Compiling parts -/

namespace Snippet

theorem isCanonical_reference {name : Text} (h : isIdentifier name = true) :
    Formula.IsCanonical ⟨name, [], none⟩ :=
  ⟨h, by simp, by simp, by simp⟩

/-- The parts are read back with texts joined that stand side by side. `pending` holds the text in
front, last character first. -/
theorem mapM_ofChars_parts (id : Text) {ps : List Part}
    (hps : ∀ name, .reference name ∈ ps → isIdentifier name = true) (pending : Text)
    (offset : Nat) :
    ∃ qs : List Part,
      (Segment.ofChars .text pending offset (print (ps.map Part.piece))).mapM (pieceOf id) =
        .ok (qs.map Part.piece) ∧
      (∀ value, qs.flatMap (Part.filled value) =
        pending.reverse ++ ps.flatMap (Part.filled value)) ∧
      ∀ name, .reference name ∈ qs → .reference name ∈ ps := by
  have hpending : ∀ pending : Text, ∃ qs : List Part,
      (Segment.ofPending pending).mapM (pieceOf id) = .ok (qs.map Part.piece) ∧
      (∀ value, qs.flatMap (Part.filled value) = pending.reverse) ∧
      ∀ name, .reference name ∉ qs := by
    rintro (_ | ⟨c, r⟩)
    · exact ⟨[], rfl, fun _ => rfl, by simp⟩
    · exact ⟨[.text (c :: r).reverse], rfl, fun value => by simp [Part.filled], by simp⟩
  induction ps generalizing pending offset with
  | nil =>
    obtain ⟨qs, hread, hfilled, hnone⟩ := hpending pending
    refine ⟨qs, hread, fun value => by simp [hfilled], fun name hname => absurd hname (hnone name)⟩
  | cons p ps ih =>
    have htail : ∀ name, .reference name ∈ ps → isIdentifier name = true :=
      fun name hname => hps name (List.mem_cons_of_mem _ hname)
    cases p with
    | text t =>
      obtain ⟨o, ho⟩ := Segment.ofChars_escape t pending offset (print (ps.map Part.piece))
      obtain ⟨qs, hread, hfilled, hrefs⟩ := ih htail (t.reverse ++ pending) o
      refine ⟨qs, ?_, fun value => ?_, fun name hname => List.mem_cons_of_mem _ (hrefs name hname)⟩
      · rw [List.map_cons, print, List.flatMap_cons, ← print]
        exact ho ▸ hread
      · rw [hfilled]
        simp [Part.filled]
    | reference name =>
      have hname := hps name List.mem_cons_self
      have hf := isCanonical_reference hname
      have ho := Segment.ofChars_formula hf.brace_not_mem_print pending offset
        (print (ps.map Part.piece))
      obtain ⟨qs, hread, hfilled, hrefs⟩ := ih htail []
        (offset + byteSize (Formula.print ⟨name, [], none⟩) + 3)
      obtain ⟨ls, hreadl, hfilledl, hnone⟩ := hpending pending
      have hpiece : pieceOf id (.formula (Formula.print ⟨name, [], none⟩) offset) =
          .ok (Part.reference name).piece := by
        rw [pieceOf, hf.parse_print]
        rfl
      have hmap := mapM_cons_eq_ok.mpr ⟨_, _, hpiece, hread, rfl⟩
      have hcode : print ((Part.reference name :: ps).map Part.piece) =
          '$' :: '{' :: (Formula.print ⟨name, [], none⟩ ++ '}' :: print (ps.map Part.piece)) := by
        simp [print, Piece.print, Part.piece]
      refine ⟨ls ++ .reference name :: qs, ?_, fun value => ?_, fun other hother => ?_⟩
      · rw [hcode, ho, List.mapM_append, hreadl, hmap]
        simp
      · simp [List.flatMap_append, hfilledl, hfilled, Part.filled]
      · rcases List.mem_append.mp hother with hl | hr
        · exact absurd hl (hnone other)
        · rcases List.mem_cons.mp hr with heq | hq
          · exact heq ▸ List.mem_cons_self
          · exact List.mem_cons_of_mem _ (hrefs other hq)

theorem compile_written {e : SharedEffect} {ps : List Part} (h : e.effect.IsWrittenAs ps) :
    ∃ qs : List Part, compile e = .ok ((qs.map Part.piece).map (SnippetNode.mk e)) ∧
      (∀ value, qs.flatMap (Part.filled value) = ps.flatMap (Part.filled value)) ∧
      ∀ name, .reference name ∈ qs → .reference name ∈ ps := by
  suffices hpieces : ∃ qs : List Part,
      piecesOf e.effect.id e.effect.code = .ok (qs.map Part.piece) ∧
      (∀ value, qs.flatMap (Part.filled value) = ps.flatMap (Part.filled value)) ∧
      ∀ name, .reference name ∈ qs → .reference name ∈ ps by
    obtain ⟨qs, hread, hrest⟩ := hpieces
    exact ⟨qs, compile_eq_ok.mpr ⟨_, hread, rfl⟩, hrest⟩
  obtain ⟨qs, hread, hfilled, hrefs⟩ := mapM_ofChars_parts e.effect.id
    (fun _ hname => h.isIdentifier_reference hname) [] 0
  rw [← h.code] at hread
  unfold piecesOf
  rw [Segment.scan_eq_scanChars, Segment.scanChars]
  by_cases hcode : e.effect.code = []
  · -- the empty code is one empty text
    rw [hcode] at hread
    have hnil : qs = [] := by
      cases qs with
      | nil => rfl
      | cons q qs => cases hread
    subst hnil
    rw [hcode]
    refine ⟨[.text []], rfl, fun value => ?_, by simp⟩
    exact hfilled value
  · simp only [List.isEmpty_iff, hcode, if_false]
    exact ⟨qs, hread, fun value => by rw [hfilled]; rfl, hrefs⟩

end Snippet

end SnippetEngine
