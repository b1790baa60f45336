-- The shapes of nodes. In a tree that was built every node has one, since the children of a node
-- stand before it. What is to be said of the match at a node is shown along the tree: for an
-- argument, and for an application whose children have shapes of which it is said.
import Mathlib.Data.List.Forall2
import SnippetEngine.Proofs.Match.Ownership

namespace SnippetEngine.MatchTree

variable {t : MatchTree}

theorem exists_node? {n : NodeId} (h : n < t.size) : ∃ node, t.node? n = some node := by
  refine Option.ne_none_iff_exists'.mp fun hnone => ?_
  exact Nat.not_lt.mpr (node?_eq_none.mp hnone) h

theorem shape?_argument {n : NodeId} {node : MatchNode} {a : Argument} (hn : t.node? n = some node)
    (hk : node.kind = .argument a) : t.shape? n = some (.argument n a) := by
  unfold shape?
  rw [hn]
  simp only [hk]

theorem shape?_application {n : NodeId} {a : Application} {ss : List Shape} (h : t.Applies n a)
    (hchildren : List.Forall₂ (fun c s => c < n ∧ t.shape? c = some s) a.children ss) :
    t.shape? n = some (.application n a ss) := by
  have hmap : a.children.mapM (fun c => if _h : c < n then t.shape? c else none) = some ss := by
    generalize a.children = cs at hchildren
    induction hchildren with
    | nil => rfl
    | cons hc _ ih =>
      rw [List.mapM_cons, dif_pos hc.1, hc.2, ih]
      rfl
  obtain ⟨node, hn, hk⟩ := h
  unfold shape?
  rw [hn]
  simp only [hk, hmap]
  rfl

theorem exists_forall₂ {α β : Type} {R : α → β → Prop} {l : List α} (h : ∀ a ∈ l, ∃ b, R a b) :
    ∃ bs, List.Forall₂ R l bs := by
  induction l with
  | nil => exact ⟨[], .nil⟩
  | cons a l ih =>
    obtain ⟨b, hb⟩ := h a List.mem_cons_self
    obtain ⟨bs, hbs⟩ := ih fun a ha => h a (List.mem_cons_of_mem _ ha)
    exact ⟨b :: bs, .cons hb hbs⟩

theorem exists_left_of_forall₂ {α β : Type} {R : α → β → Prop} {l : List α} {l' : List β}
    (h : List.Forall₂ R l l') {b : β} (hb : b ∈ l') : ∃ a ∈ l, R a b := by
  induction h with
  | nil => cases hb
  | cons hab _ ih =>
    rcases List.mem_cons.mp hb with rfl | hb
    · exact ⟨_, List.mem_cons_self, hab⟩
    · obtain ⟨a, ha, hab⟩ := ih hb
      exact ⟨a, List.mem_cons_of_mem _ ha, hab⟩

theorem exists_getElem?_of_forall₂ {α β : Type} {R : α → β → Prop} {l : List α} {l' : List β}
    (h : List.Forall₂ R l l') {i : Nat} {a : α} (ha : l[i]? = some a) :
    ∃ b, l'[i]? = some b ∧ R a b := by
  obtain ⟨hi, rfl⟩ := List.getElem?_eq_some_iff.mp ha
  have hi' : i < l'.length := h.length_eq ▸ hi
  exact ⟨l'[i], List.getElem?_eq_getElem hi', h.get hi hi'⟩

/-- What pairs of members have in common, in lists that go along with theirs. -/
theorem forall₂_of_pairs {α β γ δ : Type} {R : α → γ → Prop} {S : β → δ → Prop} {P : γ → δ → Prop}
    {as : List α} {bs : List β} {cs : List γ} {ds : List δ}
    (h : List.Forall₂ (fun a b => ∀ c d, R a c → S b d → P c d) as bs)
    (hcs : List.Forall₂ R as cs) (hds : List.Forall₂ S bs ds) : List.Forall₂ P cs ds := by
  induction h generalizing cs ds with
  | nil =>
    cases hcs
    cases hds
    exact .nil
  | cons hab _ ih =>
    rcases hcs with _ | ⟨hc, hcs⟩
    rcases hds with _ | ⟨hd, hds⟩
    exact .cons (hab _ _ hc hd) (ih hcs hds)

/-- Each node of a well-formed tree has a shape, and what holds for arguments, and for applications
if it holds for their children, holds for it. -/
theorem WellFormed.exists_shape (h : t.WellFormed) {motive : NodeId → Shape → Prop}
    (hargument : ∀ n a, t.argument? n = .ok (some a) → motive n (.argument n a))
    (happlication : ∀ n a ss, t.Applies n a →
      List.Forall₂ (fun c s => t.shape? c = some s ∧ motive c s) a.children ss →
      motive n (.application n a ss)) {n : NodeId} (hn : n < t.size) :
    ∃ s, t.shape? n = some s ∧ motive n s := by
  induction n using Nat.strongRecOn with
  | ind n ih =>
    obtain ⟨node, hnode⟩ := exists_node? hn
    rcases hk : node.kind with a | a
    · exact ⟨_, shape?_argument hnode hk,
        hargument n a (argument?_eq_some.mpr ⟨node, hnode, hk⟩)⟩
    · have happlies : t.Applies n a := ⟨node, hnode, hk⟩
      have hshapes : ∀ c ∈ a.children, ∃ s, c < n ∧ t.shape? c = some s ∧ motive c s := by
        intro c hc
        have hlt := h.earlier n a happlies c hc
        obtain ⟨s, hs⟩ := ih c hlt (Nat.lt_trans hlt hn)
        exact ⟨s, hlt, hs⟩
      obtain ⟨ss, hss⟩ := exists_forall₂ hshapes
      exact ⟨_, shape?_application happlies (hss.imp fun _ _ hcs => ⟨hcs.1, hcs.2.1⟩),
        happlication n a ss happlies (hss.imp fun _ _ hcs => hcs.2)⟩

/-- The shape of an application in a well-formed tree is made of the shapes of its children. -/
theorem WellFormed.exists_shape_application (h : t.WellFormed) {n : NodeId} {a : Application}
    (happlies : t.Applies n a) :
    ∃ ss, List.Forall₂ (fun c s => t.shape? c = some s) a.children ss ∧
      t.shape? n = some (.application n a ss) := by
  have hshapes : ∀ c ∈ a.children, ∃ s, c < n ∧ t.shape? c = some s := by
    intro c hc
    have hlt := h.earlier n a happlies c hc
    obtain ⟨s, hs, -⟩ := h.exists_shape (motive := fun _ _ => True) (fun _ _ _ => trivial)
      (fun _ _ _ _ _ => trivial) (Nat.lt_trans hlt happlies.lt_size)
    exact ⟨s, hlt, hs⟩
  obtain ⟨ss, hss⟩ := exists_forall₂ hshapes
  exact ⟨ss, hss.imp fun _ _ hcs => hcs.2, shape?_application happlies hss⟩

/-- A shape that is an application stands at its node, and its parts at the children. -/
theorem WellFormed.of_shape?_application (h : t.WellFormed) {k n : NodeId} {a : Application}
    {ss : List Shape} (hshape : t.shape? k = some (.application n a ss)) :
    k = n ∧ t.Applies n a ∧ List.Forall₂ (fun c s => t.shape? c = some s) a.children ss := by
  rcases hnode : t.node? k with _ | node
  · unfold shape? at hshape
    rw [hnode] at hshape
    cases hshape
  · rcases hk : node.kind with b | b
    · cases hshape.symm.trans (shape?_argument hnode hk)
    · have happlies : t.Applies k b := ⟨node, hnode, hk⟩
      obtain ⟨ss', hss, hshape'⟩ := h.exists_shape_application happlies
      cases hshape.symm.trans hshape'
      exact ⟨rfl, happlies, hss⟩

end SnippetEngine.MatchTree
