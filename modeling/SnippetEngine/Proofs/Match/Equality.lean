-- Equality of matches. It compares the effects by identity and the arguments by value, part by part,
-- so it is an equivalence. Equal matches have the same texts at their leaves.
import SnippetEngine.Proofs.Match.Leaves

namespace SnippetEngine

namespace Argument

theorem sameValue_iff {a b : Argument} : a.sameValue b = true ↔
    a.text = b.text ∧ a.parameter.map Parameter.signature = b.parameter.map Parameter.signature := by
  unfold sameValue
  rw [Bool.and_eq_true, beq_iff_eq, beq_iff_eq]

theorem isBound_congr {a b : Argument} (h : a.text = b.text) : a.isBound = b.isBound := by
  unfold isBound
  rw [h]

end Argument

namespace Shape

/-! ## Equality along two matches -/

theorem allAgree_iff {as bs : List Shape} :
    allAgree as bs = true ↔ List.Forall₂ (fun a b => a.agrees b = true) as bs := by
  induction as generalizing bs with
  | nil => cases bs <;> simp [allAgree]
  | cons a as ih => cases bs <;> simp [allAgree, ih]

theorem agrees_application {n m : NodeId} {a b : Application} {as bs : List Shape} :
    (application n a as).agrees (application m b bs) = true ↔
      a.effect = b.effect ∧ List.Forall₂ (fun s s' => s.agrees s' = true) as bs := by
  rw [agrees, Bool.and_eq_true, decide_eq_true_iff, allAgree_iff]

/-- What holds of arguments with one value, and of applications of one effect if it holds of their
parts, holds of equal matches. -/
theorem agrees_induction {motive : Shape → Shape → Prop}
    (hargument : ∀ n a m b, a.sameValue b = true → motive (.argument n a) (.argument m b))
    (happlication : ∀ n a as m b bs, a.effect = b.effect →
      List.Forall₂ (fun s s' => s.agrees s' = true ∧ motive s s') as bs →
      motive (.application n a as) (.application m b bs)) :
    ∀ s s' : Shape, s.agrees s' = true → motive s s'
  | .argument n a, .argument m b, h => hargument n a m b h
  | .argument _ _, .application _ _ _, h => nomatch h
  | .application _ _ _, .argument _ _, h => nomatch h
  | .application n a as, .application m b bs, h => by
    obtain ⟨heffect, hparts⟩ := agrees_application.mp h
    have hparts : List.Forall₂ (fun s s' => s ∈ as ∧ s.agrees s' = true) as bs :=
      (List.forall₂_and_left as bs).mpr ⟨fun s hs => hs, hparts⟩
    refine happlication n a as m b bs heffect (hparts.imp fun s s' ⟨hmem, hs⟩ => ?_)
    exact ⟨hs, agrees_induction hargument happlication s s' hs⟩
termination_by s => sizeOf s
decreasing_by
  have := List.sizeOf_lt_of_mem hmem
  simp
  omega

/-! ## An equivalence -/

mutual

theorem agrees_refl (s : Shape) : s.agrees s = true := by
  cases s with
  | argument n a => exact Argument.sameValue_iff.mpr ⟨rfl, rfl⟩
  | application n a as => exact agrees_application.mpr ⟨rfl, allAgree_refl as⟩

theorem allAgree_refl (ss : List Shape) :
    List.Forall₂ (fun s s' => s.agrees s' = true) ss ss := by
  cases ss with
  | nil => exact .nil
  | cons s ss => exact .cons (agrees_refl s) (allAgree_refl ss)

end

theorem agrees_symm {s s' : Shape} (h : s.agrees s' = true) : s'.agrees s = true := by
  apply agrees_induction (motive := fun s s' => s'.agrees s = true) ?_ ?_ s s' h
  · intro n a m b hab
    obtain ⟨htext, hsignature⟩ := Argument.sameValue_iff.mp hab
    exact Argument.sameValue_iff.mpr ⟨htext.symm, hsignature.symm⟩
  · intro n a as m b bs heffect hparts
    exact agrees_application.mpr ⟨heffect.symm, (hparts.imp fun _ _ h => h.2).flip⟩

theorem agrees_comm (s s' : Shape) : s.agrees s' = s'.agrees s :=
  Bool.eq_iff_iff.mpr ⟨agrees_symm, agrees_symm⟩

theorem agrees_trans {s s' : Shape} (h : s.agrees s' = true) :
    ∀ s'' : Shape, s'.agrees s'' = true → s.agrees s'' = true := by
  refine agrees_induction (motive := fun s s' => ∀ s'', s'.agrees s'' = true →
    s.agrees s'' = true) ?_ ?_ s s' h
  · intro n a m b hab s'' h'
    cases s'' with
    | application => cases h'
    | argument k c =>
      obtain ⟨htext, hsignature⟩ := Argument.sameValue_iff.mp hab
      obtain ⟨htext', hsignature'⟩ := Argument.sameValue_iff.mp h'
      exact Argument.sameValue_iff.mpr ⟨htext.trans htext', hsignature.trans hsignature'⟩
  · intro n a as m b bs heffect hparts s'' h'
    cases s'' with
    | argument => cases h'
    | application k c cs =>
      obtain ⟨heffect', hparts'⟩ := agrees_application.mp h'
      refine agrees_application.mpr ⟨heffect.trans heffect', ?_⟩
      clear h' heffect heffect'
      induction hparts generalizing cs with
      | nil => exact hparts'
      | cons hab _ ih =>
        cases hparts' with
        | cons hbc hrest => exact .cons (hab.2 _ hbc) (ih _ hrest)

/-! ## What equal matches have in common -/

/-- The arguments of equal matches have the same values, one after another. -/
theorem agrees_arguments {s s' : Shape} (h : s.agrees s' = true) :
    List.Forall₂ (fun na mb => na.2.sameValue mb.2 = true) s.arguments s'.arguments := by
  apply agrees_induction (motive := fun s s' =>
    List.Forall₂ (fun na mb => na.2.sameValue mb.2 = true) s.arguments s'.arguments) ?_ ?_ s s' h
  · intro n a m b hab
    exact .cons hab .nil
  · intro n a as m b bs _ hparts
    rw [arguments, arguments, argumentsOfAll_eq, argumentsOfAll_eq]
    induction hparts with
    | nil => exact .nil
    | cons hab _ ih =>
      rw [List.flatMap_cons, List.flatMap_cons]
      exact List.rel_append hab.2 ih

theorem texts_congr {s s' : Shape} (h : s.agrees s' = true) :
    s.arguments.map (·.2.text) = s'.arguments.map (·.2.text) := by
  rw [← List.forall₂_eq_eq_eq, List.forall₂_map_left_iff, List.forall₂_map_right_iff]
  exact (agrees_arguments h).imp fun _ _ hab => (Argument.sameValue_iff.mp hab).1

theorem all_arguments_congr {s s' : Shape} (h : s.agrees s' = true) (p : Bool → Bool) :
    s.arguments.all (fun na => p na.2.isBound) = s'.arguments.all fun na => p na.2.isBound := by
  have harguments := agrees_arguments h
  generalize s.arguments = nas, s'.arguments = mbs at harguments
  induction harguments with
  | nil => rfl
  | cons hab _ ih =>
    rw [List.all_cons, List.all_cons, ih, Argument.isBound_congr (Argument.sameValue_iff.mp hab).1]

theorem isComplete_congr {s s' : Shape} (h : s.agrees s' = true) :
    s.isComplete = s'.isComplete := by
  rw [s.isComplete_eq, s'.isComplete_eq]
  exact all_arguments_congr h id

theorem isEmpty_congr {s s' : Shape} (h : s.agrees s' = true) : s.isEmpty = s'.isEmpty := by
  rw [s.isEmpty_eq, s'.isEmpty_eq]
  exact all_arguments_congr h not

end Shape

end SnippetEngine
