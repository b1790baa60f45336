-- How the helpers split what the code of an effect stands for. A formula opens a helper, or closes
-- it, or does neither. The texts behind an opening formula, up to the next opening or closing one,
-- are the code of the helper; all other texts are the output. Every text is in one of them.
import SnippetEngine.Proofs.Document.Requests

namespace SnippetEngine

open Session

/-! ## Roles -/

/-- What a piece does to the helper capture. -/
inductive Role
  | opens
  | closes
  | plain
  deriving DecidableEq

/-- True if texts go to a helper behind a piece of that role. -/
def Role.leavesOpen (isOpen : Bool) : Role → Bool
  | opens => true
  | closes => false
  | plain => isOpen

/-- The role of a piece, where these names are bound in front of it. A variable hides the formula
with its name. -/
def Piece.role (bound : List Text) : Piece → Role
  | .formula ⟨name, [], _⟩ =>
    if bound.contains name then .plain
    else if name = "helper".toList then .opens
    else if name = "endHelper".toList then .closes
    else .plain
  | _ => .plain

namespace Role

/-- The roles of the pieces, where these names are bound in front of them. -/
def ofPieces : (bound : List Text) → List Piece → List Role
  | _, [] => []
  | bound, p :: ps => p.role bound :: ofPieces (bound ++ p.capture?.toList) ps

/-- Behind each piece that opens a helper there is one that closes it. -/
def ClosesAll (rs : List Role) : Prop := ∀ pre post, rs = pre ++ .opens :: post → .closes ∈ post

/-- True if texts go to a helper behind pieces of these roles. -/
def leaveOpen (isOpen : Bool) (rs : List Role) : Bool := rs.foldl leavesOpen isOpen

/-- All helpers are closed if none is open behind the pieces. -/
theorem closesAll_iff {rs : List Role} : ClosesAll rs ↔ leaveOpen false rs = false := by
  induction rs using List.reverseRecOn with
  | nil => exact iff_of_true (fun pre post h => by simp at h) rfl
  | append_singleton rs r ih =>
    have hlast : leaveOpen false (rs ++ [r]) = r.leavesOpen (leaveOpen false rs) :=
      List.foldl_append
    rw [hlast]
    cases r with
    | opens =>
      refine iff_of_false (fun h => ?_) (by simp [leavesOpen])
      have hclosed := h rs [] rfl
      cases hclosed
    | closes =>
      refine iff_of_true (fun pre post h => ?_) rfl
      rcases List.eq_nil_or_concat' post with rfl | ⟨post, r, rfl⟩
      · cases (List.append_inj' h rfl).2
      · rw [← List.cons_append, ← List.append_assoc] at h
        cases (List.append_inj' h rfl).2
        exact List.mem_concat_self
    | plain =>
      rw [Role.leavesOpen, ← ih]
      constructor
      · intro h pre post hsplit
        have hclosed := h pre (post ++ [.plain]) (by simp [hsplit])
        simpa using hclosed
      · intro h pre post hsplit
        rcases List.eq_nil_or_concat' post with rfl | ⟨post, r, rfl⟩
        · cases (List.append_inj' hsplit rfl).2
        · rw [← List.cons_append, ← List.append_assoc] at hsplit
          exact List.mem_append_left _ (h pre post (List.append_inj' hsplit rfl).1)

end Role

/-! ## Sections -/

/-- The texts, each with the role of the piece that stands for it. -/
abbrev Stretch := List (Role × Text)

namespace Stretch

/-- The texts that go to the output. -/
def outside : (isOpen : Bool) → Stretch → Text
  | _, [] => []
  | isOpen, (role, text) :: l =>
    (if role.leavesOpen isOpen then [] else text) ++ outside (role.leavesOpen isOpen) l

/-- The texts in front of the first piece that opens or closes a helper. -/
def front (l : Stretch) : Text := (l.takeWhile (·.1 == .plain)).flatMap Prod.snd

/-- What stands in each of the helpers, in the order in which they are opened. -/
def sections : Stretch → List Text
  | [] => []
  | (role, text) :: l => if role = .opens then (text ++ front l) :: sections l else sections l

theorem front_cons (role : Role) (text : Text) (l : Stretch) :
    front ((role, text) :: l) = if role = .plain then text ++ front l else [] := by
  unfold front
  by_cases h : role = .plain
  · simp [h]
  · simp [h]

/-- There is one section for each piece that opens a helper. -/
theorem length_sections (l : Stretch) :
    (sections l).length = l.countP fun part => part.1 = .opens := by
  induction l with
  | nil => rfl
  | cons part l ih =>
    obtain ⟨role, text⟩ := part
    by_cases h : role = .opens
    · simp [sections, h, ih]
    · simp [sections, h, ih]

/-- Nothing is lost and nothing is written twice: what goes on with an open helper, the output and
the sections together have the characters of all texts. -/
theorem perm_split (isOpen : Bool) (l : Stretch) :
    ((if isOpen then front l else []) ++ (outside isOpen l ++ (sections l).flatten)).Perm
      (l.flatMap Prod.snd) := by
  induction l generalizing isOpen with
  | nil => cases isOpen <;> exact .nil
  | cons part l ih =>
    obtain ⟨role, text⟩ := part
    rw [List.flatMap_cons, front_cons]
    cases role with
    | opens =>
      -- the text of the new section comes before what follows outside
      refine List.perm_iff_count.mpr fun c => ?_
      have hrest := (ih true).count_eq c
      simp only [if_true, List.count_append] at hrest
      simp [outside, sections, Role.leavesOpen]
      omega
    | closes => simpa [outside, sections, Role.leavesOpen] using (ih false).append_left text
    | plain =>
      cases isOpen with
      | true => simpa [outside, sections, Role.leavesOpen] using (ih true).append_left text
      | false => simpa [outside, sections, Role.leavesOpen] using (ih false).append_left text

end Stretch

/-! ## Pieces -/

namespace Document

theorem isSome_value?_keep {scope : Bindings} {capture : Option Text} {text x : Text} :
    ((scope.keep capture text).value? x).isSome ↔ (scope.value? x).isSome ∨ capture = some x := by
  rcases capture with _ | name
  · simp [Bindings.keep]
  · by_cases h : x = name
    · subst h
      simp [Bindings.keep]
    · simp [Bindings.keep, Bindings.value?_bind_ne text scope h, Ne.symm h]

/-- The scope binds these names and no others. -/
def Binds (scope : Bindings) (bound : List Text) : Prop :=
  ∀ x, x ∈ bound ↔ (scope.value? x).isSome

theorem Binds.keep {scope : Bindings} {bound : List Text} (h : Binds scope bound)
    (capture : Option Text) (text : Text) :
    Binds (scope.keep capture text) (bound ++ capture.toList) := by
  intro x
  rw [isSome_value?_keep, List.mem_append, Option.mem_toList]
  exact or_congr_left (h x)

variable {scope : Bindings} {bound : List Text}

/-- The capture of helpers, and the helpers, are those of the other document. -/
def SameHelpers (d e : Document) : Prop :=
  e.gathered.inHelper = d.gathered.inHelper ∧ e.gathered.helpers = d.gathered.helpers

theorem sameHelpers_loopName (d : Document) : SameHelpers d ((loopName scope).run d).2 := by
  have hrun := run_handOut scope .loop d
  unfold handOut at hrun
  rw [hrun]
  exact ⟨rfl, rfl⟩

theorem sameHelpers_valueOf (site : Site) {name : Text}
    (h : (scope.value? name).isSome ∨ name ≠ "helper".toList ∧ name ≠ "endHelper".toList)
    (d : Document) : SameHelpers d ((valueOf site scope name).run d).2 := by
  unfold valueOf
  rcases hvalue : scope.value? name with _ | value
  · obtain ⟨hopens, hcloses⟩ := h.resolve_left (by simp [hvalue])
    dsimp only
    split
    · exact ⟨rfl, rfl⟩
    split
    · exact ⟨rfl, rfl⟩
    split
    · exact sameHelpers_loopName d
    split
    · exact ⟨rfl, rfl⟩
    split
    · exact ⟨rfl, rfl⟩
    exact ⟨rfl, rfl⟩
  · exact ⟨rfl, rfl⟩

theorem sameHelpers_resultOf (site : Site) (name argument : Text) (d : Document) :
    SameHelpers d ((resultOf site scope name argument).run d).2 := by
  unfold resultOf
  split
  · change SameHelpers d (requestImport argument d)
    unfold requestImport
    split
    · exact ⟨rfl, rfl⟩
    · exact ⟨rfl, rfl⟩
  split
  · exact ⟨rfl, rfl⟩
  split
  · exact ⟨rfl, rfl⟩
  split
  · exact ⟨rfl, rfl⟩
  · exact ⟨rfl, rfl⟩

/-- What a piece of that role does to the helpers. -/
def ActsAs (role : Role) (effectId : Text) (d e : Document) : Prop :=
  e.gathered.inHelper = role.leavesOpen d.gathered.inHelper ∧
    e.gathered.helpers = d.gathered.helpers ++ if role = .opens then [⟨effectId, []⟩] else []

theorem SameHelpers.actsAs_plain {d e : Document} (h : SameHelpers d e) (effectId : Text) :
    ActsAs .plain effectId d e := ⟨h.1, h.2.trans (List.append_nil _).symm⟩

/-- A piece switches the capture as its role says. A new helper is empty. -/
theorem actsAs_represented (hbound : Binds scope bound) (site : Site) (piece : Piece)
    (d : Document) : ActsAs (piece.role bound) site.owner.effect.id d
      ((represented site scope piece).run d).2 := by
  rcases piece with text | ⟨name, _ | ⟨argument, rest⟩, capture⟩
  · exact SameHelpers.actsAs_plain ⟨rfl, rfl⟩ _
  · change ActsAs _ _ d ((valueOf site scope name).run d).2
    dsimp only [Piece.role]
    by_cases hname : name ∈ bound
    · rw [if_pos (List.contains_iff_mem.mpr hname)]
      exact (sameHelpers_valueOf site (.inl ((hbound name).mp hname)) d).actsAs_plain _
    rw [if_neg (mt List.contains_iff_mem.mp hname)]
    have hfree : scope.value? name = none := by simpa using mt (hbound name).mpr hname
    split
    next hopens =>
      subst hopens
      unfold valueOf
      rw [hfree]
      exact ⟨rfl, rfl⟩
    next hopens =>
      split
      next hcloses =>
        subst hcloses
        unfold valueOf
        rw [hfree]
        exact ⟨rfl, (List.append_nil _).symm⟩
      next hcloses => exact (sameHelpers_valueOf site (.inr ⟨hopens, hcloses⟩) d).actsAs_plain _
  · exact (sameHelpers_resultOf site name _ d).actsAs_plain _

/-! ## Where a text goes -/

theorem addToLast_append_singleton (text : Text) (hs : List Helper) (h : Helper) :
    addToLast text (hs ++ [h]) = hs ++ [{ h with code := h.code ++ text }] := by
  induction hs with
  | nil => rfl
  | cons h' hs ih =>
    rw [List.cons_append, addToLast, ih]
    · rfl
    · simp

theorem addToLast_addToLast (s t : Text) (hs : List Helper) :
    addToLast t (addToLast s hs) = addToLast (s ++ t) hs := by
  rcases List.eq_nil_or_concat hs with rfl | ⟨hs, h, rfl⟩
  · rfl
  · simp [addToLast_append_singleton]

theorem addToLast_nil (hs : List Helper) : addToLast [] hs = hs := by
  rcases List.eq_nil_or_concat hs with rfl | ⟨hs, h, rfl⟩
  · rfl
  · simp [addToLast_append_singleton]

/-- The text, computed with the document `e` behind it, goes to one place: to the end of the helper
that was opened last while one is open, and else to the output. -/
inductive Lands (text : Text) (e : Document) : (output : Text) → (behind : Document) → Prop
  | inHelper (hs : List Helper) (h : Helper) (isOpen : e.gathered.inHelper = true)
    (opened : e.gathered.helpers = hs ++ [h]) : Lands text e [] { e with
      gathered := { e.gathered with helpers := hs ++ [{ h with code := h.code ++ text }] } }
  | inOutput (isClosed : e.gathered.inHelper = false) : Lands text e text e

theorem isTidy_represented (site : Site) (scope : Bindings) (piece : Piece) {d : Document}
    (h : d.gathered.IsTidy) : ((represented site scope piece).run d).2.gathered.IsTidy := by
  rcases piece with text | f
  · exact h
  · obtain ⟨g, hrun, hchange⟩ := changes_computed site scope f d
    change ((computed site scope f).run d).2.gathered.IsTidy
    rw [hrun]
    exact hchange.isTidy h

theorem lands_receive (text : Text) {e : Document} (h : e.gathered.IsTidy) :
    Lands text e (Contribution.answer ⟨text, e.openHelper?⟩) (e.receive text) := by
  unfold openHelper? receive
  by_cases hopen : e.gathered.inHelper = true
  · obtain ⟨hs, last, hlast⟩ := (List.eq_nil_or_concat' _).resolve_left (h.open_helper hopen)
    rw [if_pos hopen, if_pos hopen, hlast, addToLast_append_singleton]
    exact .inHelper hs last hopen hlast
  · rw [if_neg hopen, if_neg hopen]
    exact .inOutput (by simpa using hopen)

theorem isTidy_receive (text : Text) {e : Document} (h : e.gathered.IsTidy) :
    (e.receive text).gathered.IsTidy := by
  unfold receive
  split
  · exact h.addToLast text
  · exact h

/-- Every piece of a walk puts what it stands for in one place. -/
theorem exists_lands (site : Site) (scope : Bindings) (piece : Piece) {d : Document}
    (h : d.gathered.IsTidy) :
    let r := (represented site scope piece).run d
    ∃ output behind, (Evaluator.evaluatePiece site scope piece :
        Session Document (Text × Bindings)).run.run d =
          (.ok (output, scope.keep piece.capture? output), behind) ∧
      Lands r.1 r.2 output behind ∧ behind.gathered.IsTidy := by
  have htidy := isTidy_represented site scope piece h
  have hrun := run_evaluatePiece site scope piece d
  rw [run_contribution] at hrun
  exact ⟨_, _, hrun, lands_receive _ htidy, isTidy_receive _ htidy⟩

/-! ## The texts of an application -/

theorem helpers_receive (text : Text) (e : Document) :
    (e.receive text).gathered.inHelper = e.gathered.inHelper ∧
      (e.receive text).gathered.helpers =
        if e.gathered.inHelper then addToLast text e.gathered.helpers else e.gathered.helpers := by
  unfold receive
  split
  · exact ⟨rfl, rfl⟩
  · exact ⟨rfl, rfl⟩

/-- The texts of the pieces are split as their roles say: what stands outside goes to the output,
each section is the code of a new helper, and what comes in front of the first section goes on with
the helper that is open, if one is. -/
theorem contributions_split (hbound : Binds scope bound) (t : MatchTree) (n : NodeId)
    (a : Application) {id : Text} {snippet : Snippet}
    (hid : ∀ s ∈ snippet, s.effect.effect.id = id) (d : Document) :
    let cs := (contributions t n a scope snippet).run d
    let roles := Role.ofPieces bound (snippet.map (·.piece))
    let l : Stretch := roles.zip (cs.1.map (·.text))
    cs.1.length = snippet.length ∧
      Contribution.textFor none cs.1 = l.outside d.gathered.inHelper ∧
      cs.2.gathered.inHelper = Role.leaveOpen d.gathered.inHelper roles ∧
      cs.2.gathered.helpers =
        (if d.gathered.inHelper then addToLast l.front d.gathered.helpers
          else d.gathered.helpers) ++ l.sections.map (Helper.mk id) := by
  induction snippet generalizing scope bound d with
  | nil =>
    refine ⟨rfl, rfl, rfl, ?_⟩
    change d.gathered.helpers =
      (if d.gathered.inHelper then addToLast [] d.gathered.helpers else d.gathered.helpers) ++ []
    rw [addToLast_nil, ite_self, List.append_nil]
  | cons s ss ih =>
    have howner : s.effect.effect.id = id := hid s List.mem_cons_self
    obtain ⟨hin, hhelpers⟩ := actsAs_represented hbound ⟨t, n, a, s.effect⟩ s.piece d
    rw [run_contributions_cons, run_contribution]
    generalize (represented ⟨t, n, a, s.effect⟩ scope s.piece).run d = r at hin hhelpers ⊢
    obtain ⟨text, e⟩ := r
    obtain ⟨hin', hhelpers'⟩ := helpers_receive text e
    have hrest := ih (hbound.keep s.piece.capture? (Contribution.answer ⟨text, e.openHelper?⟩))
      (fun s hs => hid s (List.mem_cons_of_mem _ hs)) (e.receive text)
    dsimp only at hin hhelpers hrest ⊢
    generalize (contributions t n a _ ss).run (e.receive text) = rest at hrest ⊢
    rw [hin', hhelpers', hhelpers, hin, howner] at hrest
    obtain ⟨hlength, hout, hopen, hhs⟩ := hrest
    rw [List.map_cons, Role.ofPieces, List.map_cons, List.zip_cons_cons]
    generalize s.piece.role bound = role at *
    refine ⟨by simp [hlength], ?_, ?_, ?_⟩
    · rw [Contribution.textFor_cons, hout, Stretch.outside]
      unfold openHelper?
      rw [hin]
      cases role.leavesOpen d.gathered.inHelper <;> rfl
    · rw [hopen]
      rfl
    · rw [hhs, Stretch.front_cons, Stretch.sections]
      cases role with
      | opens => simp [Role.leavesOpen, addToLast_append_singleton, addToLast_nil]
      | closes => simp [Role.leavesOpen, addToLast_nil]
      | plain =>
        by_cases hd : d.gathered.inHelper = true
        · simp [Role.leavesOpen, hd, addToLast_addToLast]
        · simp [Role.leavesOpen, hd]

end Document

end SnippetEngine
