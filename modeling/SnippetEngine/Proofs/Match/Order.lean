-- The order in which the applications of a match are evaluated: those below the children first, from
-- left to right, then the node itself. In a tree that was built, the order has the applications that
-- can be reached along children, and each of them once.
import Mathlib.Data.List.Nodup
import SnippetEngine.Proofs.Match.Below

namespace SnippetEngine

open Relation

/-! ## Post-order -/

mutual

/-- The nodes of the applications of a match, children before their parents. -/
def Shape.postorder : Shape → List NodeId
  | argument _ _ => []
  | application n _ children => postorderOfAll children ++ [n]

def Shape.postorderOfAll : List Shape → List NodeId
  | [] => []
  | s :: ss => s.postorder ++ postorderOfAll ss

end

namespace MatchTree

variable {t : MatchTree}

/-- The nodes of the applications of the match at a node; none if there is no match. -/
def postorder (t : MatchTree) (n : NodeId) : List NodeId := (t.shape? n).elim [] Shape.postorder

theorem postorder_of_shape? {n : NodeId} {s : Shape} (h : t.shape? n = some s) :
    t.postorder n = s.postorder := by
  unfold postorder
  rw [h]
  rfl

theorem flatMap_postorder {cs : List NodeId} {ss : List Shape}
    (h : List.Forall₂ (fun c s => t.shape? c = some s) cs ss) :
    cs.flatMap t.postorder = Shape.postorderOfAll ss := by
  induction h with
  | nil => rfl
  | cons hc _ ih => rw [List.flatMap_cons, Shape.postorderOfAll, postorder_of_shape? hc, ih]

theorem postorder_of_not_applies {n : NodeId} (h : ∀ a, ¬ t.Applies n a) : t.postorder n = [] := by
  unfold postorder
  rcases hnode : t.node? n with _ | node
  · unfold shape?
    rw [hnode]
    rfl
  · rcases hk : node.kind with a | a
    · rw [shape?_argument hnode hk]
      rfl
    · exact absurd ⟨node, hnode, hk⟩ (h a)

/-! ## The applications below a node -/

namespace WellFormed

/-- The applications below the children in parameter order, and then the node. -/
theorem postorder_application (h : t.WellFormed) {n : NodeId} {a : Application}
    (happlies : t.Applies n a) : t.postorder n = a.children.flatMap t.postorder ++ [n] := by
  obtain ⟨ss, hss, hshape⟩ := h.exists_shape_application happlies
  rw [postorder_of_shape? hshape, flatMap_postorder hss, Shape.postorder]

theorem mem_postorder (h : t.WellFormed) {m n : NodeId} :
    m ∈ t.postorder n ↔ (∃ a, t.Applies m a) ∧ t.IsBelow m n := by
  apply h.mem_iff_isBelow (P := fun m => ∃ a, t.Applies m a)
  · intro n a happlies m
    rw [h.postorder_application happlies, List.mem_append, List.mem_flatMap, List.mem_singleton]
    exact or_congr_right ⟨fun hm => ⟨hm, a, happlies⟩, And.left⟩
  · intro n hnone m
    rw [postorder_of_not_applies hnone]
    exact iff_of_false (fun hm => nomatch hm) fun hm => hm.2.elim hnone

theorem nodup_postorder (h : t.WellFormed) (n : NodeId) : (t.postorder n).Nodup := by
  induction n using Nat.strongRecOn with
  | ind n ih =>
    by_cases hn : ∃ a, t.Applies n a
    · obtain ⟨a, happlies⟩ := hn
      rw [h.postorder_application happlies, List.nodup_append, List.nodup_flatMap]
      refine ⟨⟨fun c hc => ih c (h.earlier n a happlies c hc), ?_⟩, List.nodup_singleton n, ?_⟩
      · refine (h.distinct n a happlies).imp_of_mem fun hc hd hne m hmc hmd => hne ?_
        exact h.eq_of_isBelow happlies hc hd (h.mem_postorder.mp hmc).2 (h.mem_postorder.mp hmd).2
      · intro m hm k hk hmk
        obtain ⟨c, hc, hmc⟩ := List.mem_flatMap.mp hm
        rw [hmk, List.mem_singleton.mp hk] at hmc
        have hcn : t.IsChild c n := ⟨a, happlies, hc⟩
        exact absurd (h.lt_of_isChild (.tail' (h.mem_postorder.mp hmc).2 hcn)) (Nat.lt_irrefl n)
    · rw [postorder_of_not_applies fun a ha => hn ⟨a, ha⟩]
      exact .nil

/-- A ghost is a leaf, so it is no application. -/
theorem ghost_not_mem_postorder (h : t.WellFormed) {p : NodeId} {a : Application}
    (happlies : t.Applies p a) (n : NodeId) : a.ghost ∉ t.postorder n := by
  intro hm
  obtain ⟨⟨b, hb⟩, -⟩ := h.mem_postorder.mp hm
  obtain ⟨text, hleaf⟩ := h.ghost_leaf p a happlies
  exact not_applies_of_argument? hleaf b hb

end WellFormed

end MatchTree

end SnippetEngine
