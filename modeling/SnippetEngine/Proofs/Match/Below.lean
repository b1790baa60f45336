-- The nodes below a node. They are all that the match at the node depends on, and in a tree that was
-- built no node is below two children of one application.
import SnippetEngine.Proofs.Match.Shapes
import SnippetEngine.Proofs.Outcome

namespace SnippetEngine.MatchTree

open Relation

variable {t : MatchTree}

/-- The node `m` is the node `n` or can be reached from it along children. -/
def IsBelow (t : MatchTree) (m n : NodeId) : Prop := ReflTransGen t.IsChild m n

theorem isBelow_iff {m n : NodeId} : t.IsBelow m n ↔
    m = n ∨ ∃ a, t.Applies n a ∧ ∃ c ∈ a.children, t.IsBelow m c := by
  unfold IsBelow
  rw [ReflTransGen.cases_tail_iff, eq_comm]
  constructor
  · rintro (heq | ⟨c, hmc, a, happlies, hc⟩)
    · exact .inl heq
    · exact .inr ⟨a, happlies, c, hc, hmc⟩
  · rintro (heq | ⟨a, happlies, c, hc, hmc⟩)
    · exact .inl heq
    · exact .inr ⟨c, hmc, a, happlies, hc⟩

theorem Applies.unique {n : NodeId} {a b : Application} (ha : t.Applies n a) (hb : t.Applies n b) :
    a = b := by
  rw [← application?_eq_some] at ha hb
  exact Option.some.inj (Except.ok.inj (ha.symm.trans hb))

/-- There is no such node, or it is that of an argument, or that of an application. -/
theorem node_cases (t : MatchTree) (n : NodeId) :
    t.node? n = none ∨ (∃ a, t.argument? n = .ok (some a)) ∨ ∃ a, t.Applies n a := by
  rcases hnode : t.node? n with _ | node
  · exact .inl rfl
  · rcases hk : node.kind with a | a
    · exact .inr (.inl ⟨a, argument?_eq_some.mpr ⟨node, hnode, hk⟩⟩)
    · exact .inr (.inr ⟨a, node, hnode, hk⟩)

theorem not_applies_of_argument? {n : NodeId} {a : Argument} (h : t.argument? n = .ok (some a))
    (b : Application) : ¬ t.Applies n b := by
  rintro ⟨node, hnode, hk⟩
  obtain ⟨node', hnode', hk'⟩ := argument?_eq_some.mp h
  cases hnode.symm.trans hnode'
  cases hk.symm.trans hk'

/-! ## What a match depends on -/

/-- A match depends on what the nodes below its node are, and not on their parents and
classifications. -/
theorem shape?_congr {u : MatchTree} {n : NodeId}
    (h : ∀ m, t.IsBelow m n → (u.node? m).map (·.kind) = (t.node? m).map (·.kind)) :
    u.shape? n = t.shape? n := by
  induction n using Nat.strongRecOn with
  | ind n ih =>
    have hkind := h n .refl
    unfold shape?
    rcases ht : t.node? n with _ | node
    · rw [ht] at hkind
      rw [Option.map_eq_none_iff.mp hkind]
    · rw [ht] at hkind
      obtain ⟨node', hu, hkind⟩ := Option.map_eq_some_iff.mp hkind
      rw [hu]
      simp only [hkind]
      rcases hk : node.kind with a | a
      · rfl
      · have hchildren : ∀ c ∈ a.children, (if _h : c < n then u.shape? c else none) =
            if _h : c < n then t.shape? c else none := by
          intro c hc
          split
          next hlt => exact ih c hlt fun m hm => h m (hm.tail ⟨a, ⟨node, ht, hk⟩, hc⟩)
          next => rfl
        simp only
        rw [mapM_congr hchildren]

namespace WellFormed

/-- A list that has what the lists of the children have, and the node itself if `P` holds of it, has
the nodes below the node of which `P` holds. -/
theorem mem_iff_isBelow (h : t.WellFormed) {f : NodeId → List NodeId} {P : NodeId → Prop}
    (happlication : ∀ n a, t.Applies n a → ∀ m,
      m ∈ f n ↔ (∃ c ∈ a.children, m ∈ f c) ∨ m = n ∧ P n)
    (hother : ∀ n, (∀ a, ¬ t.Applies n a) → ∀ m, m ∈ f n ↔ m = n ∧ P n) {m n : NodeId} :
    m ∈ f n ↔ P m ∧ t.IsBelow m n := by
  induction n using Nat.strongRecOn with
  | ind n ih =>
    rw [isBelow_iff]
    by_cases hn : ∃ a, t.Applies n a
    · obtain ⟨a, happlies⟩ := hn
      rw [happlication n a happlies]
      constructor
      · rintro (⟨c, hc, hm⟩ | ⟨rfl, hm⟩)
        · obtain ⟨hm, hbelow⟩ := (ih c (h.earlier n a happlies c hc)).mp hm
          exact ⟨hm, .inr ⟨a, happlies, c, hc, hbelow⟩⟩
        · exact ⟨hm, .inl rfl⟩
      · rintro ⟨hm, rfl | ⟨b, hb, c, hc, hbelow⟩⟩
        · exact .inr ⟨rfl, hm⟩
        · rw [hb.unique happlies] at hc
          exact .inl ⟨c, hc, (ih c (h.earlier n a happlies c hc)).mpr ⟨hm, hbelow⟩⟩
    · have hnone : ∀ a, ¬ t.Applies n a := fun a ha => hn ⟨a, ha⟩
      rw [hother n hnone]
      constructor
      · rintro ⟨rfl, hm⟩
        exact ⟨hm, .inl rfl⟩
      · rintro ⟨hm, rfl | ⟨b, hb, -⟩⟩
        · exact ⟨rfl, hm⟩
        · exact absurd hb (hnone b)

/-- A node is below one child of a node at most. Of two nodes above it one is above the other, and
no child is above its siblings. -/
theorem eq_of_isBelow (h : t.WellFormed) {n : NodeId} {a : Application} (happlies : t.Applies n a)
    {c d m : NodeId} (hc : c ∈ a.children) (hd : d ∈ a.children) (hmc : t.IsBelow m c)
    (hmd : t.IsBelow m d) : c = d := by
  have hunique : Relator.RightUnique t.IsChild := by
    rintro k p q ⟨b, hb, hk⟩ ⟨b', hb', hk'⟩
    exact h.owner_unique ⟨b, hb, .inl hk⟩ ⟨b', hb', .inl hk'⟩
  have hapart : ∀ c ∈ a.children, ∀ d ∈ a.children, t.IsBelow c d → c = d := by
    intro c hc d hd hbelow
    rcases ReflTransGen.cases_head hbelow with heq | ⟨p, hcp, hpd⟩
    · exact heq
    · rw [hunique hcp ⟨a, happlies, hc⟩] at hpd
      have hdn : t.IsChild d n := ⟨a, happlies, hd⟩
      exact absurd (h.lt_of_isChild (.tail' hpd hdn)) (Nat.lt_irrefl n)
  rcases ReflTransGen.total_of_right_unique hunique hmc hmd with hcd | hdc
  · exact hapart c hc d hd hcd
  · exact (hapart d hd c hc hdc).symm

theorem lt_size_of_isBelow (h : t.WellFormed) {m n : NodeId} (hn : n < t.size)
    (hm : t.IsBelow m n) : m < t.size := by
  induction hm using ReflTransGen.head_induction_on with
  | refl => exact hn
  | head hchild _ ih =>
    obtain ⟨a, happlies, hc⟩ := hchild
    exact Nat.lt_trans (h.earlier _ a happlies _ hc) ih

theorem eq_of_ghost_isBelow (h : t.WellFormed) {p n : NodeId} {a : Application}
    (happlies : t.Applies p a) (hbelow : t.IsBelow a.ghost n) : a.ghost = n := by
  rcases ReflTransGen.cases_head hbelow with heq | ⟨q, hchild, -⟩
  · exact heq
  · exact absurd hchild (h.ghost_no_child p a happlies q)

end WellFormed

end SnippetEngine.MatchTree
