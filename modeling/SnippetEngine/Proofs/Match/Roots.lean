-- The roots of nodes. In a tree that was built, the walk along the parents ends: from an
-- application it goes to later and later nodes, and only its first step, from a ghost, goes back.
-- So each node has one root, the nodes of one root are those that are connected, and a new
-- application joins the nodes of its children's roots under itself.
import Mathlib.Data.List.Nodup
import Mathlib.Data.List.Perm.Subperm
import SnippetEngine.Proofs.Match.Copying

namespace SnippetEngine.MatchTree

open Relation

variable {t : MatchTree} {m n p r : NodeId} {ns : List NodeId}

/-! ## The walk along the parents -/

/-- The walk from the node `n` along the parents meets the nodes `ns` and ends at `r`, the first of
them without a parent. -/
inductive Climbs (t : MatchTree) : NodeId → List NodeId → NodeId → Prop
  | top {r : NodeId} : t.parent r = .ok none → Climbs t r [r] r
  | up {n p r : NodeId} {ns : List NodeId} :
      t.parent n = .ok (some p) → Climbs t p ns r → Climbs t n (n :: ns) r

namespace Climbs

theorem parent_root (h : t.Climbs n ns r) : t.parent r = .ok none := by
  induction h with
  | top hr => exact hr
  | up _ _ ih => exact ih

theorem lt_size (h : t.Climbs n ns r) : ∀ m ∈ ns, m < t.size := by
  induction h with
  | top hr => exact List.forall_mem_singleton.mpr (lt_size_of_parent hr)
  | up hp _ ih => exact List.forall_mem_cons.mpr ⟨lt_size_of_parent hp, ih⟩

theorem unique {ns' : List NodeId} {r' : NodeId} (h : t.Climbs n ns r) (h' : t.Climbs n ns' r') :
    ns = ns' ∧ r = r' := by
  induction h generalizing ns' with
  | top hr =>
    cases h' with
    | top => exact ⟨rfl, rfl⟩
    | up hp => cases hr.symm.trans hp
  | up hp _ ih =>
    cases h' with
    | top hr => cases hr.symm.trans hp
    | up hq hrest =>
      cases hp.symm.trans hq
      obtain ⟨rfl, rfl⟩ := ih hrest
      exact ⟨rfl, rfl⟩

/-- The walk from a node that a walk meets is the rest of that walk. -/
theorem of_mem (h : t.Climbs n ns r) (hm : m ∈ ns) : ∃ rest, rest <:+ ns ∧ t.Climbs m rest r := by
  induction h with
  | top hr =>
    cases List.mem_singleton.mp hm
    exact ⟨_, List.suffix_rfl, .top hr⟩
  | up hp hrest ih =>
    rcases List.mem_cons.mp hm with rfl | hm
    · exact ⟨_, List.suffix_rfl, .up hp hrest⟩
    · obtain ⟨rest, hsuffix, hclimbs⟩ := ih hm
      exact ⟨rest, hsuffix.trans (List.suffix_cons _ _), hclimbs⟩

/-- A walk that came back to a node would go round and round, and not end. -/
theorem nodup (h : t.Climbs n ns r) : ns.Nodup := by
  induction h with
  | top => exact List.nodup_singleton _
  | up hp hrest ih =>
    refine List.nodup_cons.mpr ⟨fun hn => ?_, ih⟩
    obtain ⟨rest, hsuffix, hclimbs⟩ := hrest.of_mem hn
    obtain ⟨rfl, -⟩ := hclimbs.unique (.up hp hrest)
    exact absurd hsuffix.length_le (Nat.not_succ_le_self _)

theorem ancestor (h : t.Climbs n ns r) {steps : Nat} (hsteps : ns.length ≤ steps + 1) :
    t.ancestor steps n = .ok r := by
  induction h generalizing steps with
  | top hr =>
    cases steps with
    | zero => rfl
    | succ steps =>
      rw [MatchTree.ancestor, hr]
      rfl
  | up hp hrest ih =>
    cases steps with
    | zero =>
      have hlength := Nat.le_of_succ_le_succ hsteps
      cases hrest <;> simp at hlength
    | succ steps =>
      rw [MatchTree.ancestor, hp]
      exact ih (Nat.le_of_succ_le_succ hsteps)

/-- The walk has as many steps as it needs. -/
theorem root (h : t.Climbs n ns r) : t.root n = .ok r := by
  have hlength : ns.length ≤ t.size := by
    have hsubset : ns ⊆ List.range t.size := fun m hm => List.mem_range.mpr (h.lt_size m hm)
    simpa using (List.subperm_of_subset h.nodup hsubset).length_le
  have hn : n < t.size := by
    cases h with
    | top hr => exact lt_size_of_parent hr
    | up hp => exact lt_size_of_parent hp
  obtain ⟨node, hnode⟩ := exists_node? hn
  unfold MatchTree.root MatchTree.node
  rw [hnode]
  exact h.ancestor (Nat.le_succ_of_le hlength)

end Climbs

/-! ## The root of a node -/

theorem lt_size_of_root (h : t.root n = .ok r) : n < t.size := by
  obtain ⟨node, hnode, -⟩ := bind_eq_ok.mp h
  by_contra hnot
  unfold MatchTree.node at hnode
  rw [node?_eq_none.mpr (Nat.le_of_not_lt hnot)] at hnode
  cases hnode

namespace WellFormed

/-- An application that has a parent is a child of it: it is no ghost, since those are arguments. -/
theorem lt_of_parent (h : t.WellFormed) {a : Application} (happlies : t.Applies n a)
    (hp : t.parent n = .ok (some p)) : n < p := by
  obtain ⟨b, hb, hchild | rfl⟩ := (h.parent_iff n p).mp hp
  · exact h.earlier p b hb n hchild
  · obtain ⟨text, hghost⟩ := h.ghost_leaf p b hb
    exact absurd happlies (not_applies_of_argument? hghost a)

theorem exists_climbs_of_applies (h : t.WellFormed) {a : Application} (happlies : t.Applies n a) :
    ∃ ns r, t.Climbs n ns r := by
  -- What lies behind the node gets less with each step.
  induction hbehind : t.size - n using Nat.strongRecOn generalizing n a with
  | ind k ih =>
    obtain ⟨node, hnode, -⟩ := id happlies
    rcases hparent : node.parent with _ | p
    · exact ⟨_, _, .top (parent_eq_ok.mpr ⟨node, hnode, hparent⟩)⟩
    · have hp : t.parent n = .ok (some p) := parent_eq_ok.mpr ⟨node, hnode, hparent⟩
      obtain ⟨b, hb, -⟩ := (h.parent_iff n p).mp hp
      have hless : t.size - p < k :=
        hbehind ▸ Nat.sub_lt_sub_left happlies.lt_size (h.lt_of_parent happlies hp)
      obtain ⟨ns, r, hclimbs⟩ := ih (t.size - p) hless hb rfl
      exact ⟨_, _, .up hp hclimbs⟩

/-- A parent is an application, so only the first step of a walk leaves an argument. -/
theorem exists_climbs (h : t.WellFormed) (hn : n < t.size) : ∃ ns r, t.Climbs n ns r := by
  obtain ⟨node, hnode⟩ := exists_node? hn
  rcases hparent : node.parent with _ | p
  · exact ⟨_, _, .top (parent_eq_ok.mpr ⟨node, hnode, hparent⟩)⟩
  · have hp : t.parent n = .ok (some p) := parent_eq_ok.mpr ⟨node, hnode, hparent⟩
    obtain ⟨b, hb, -⟩ := (h.parent_iff n p).mp hp
    obtain ⟨ns, r, hclimbs⟩ := h.exists_climbs_of_applies hb
    exact ⟨_, _, .up hp hclimbs⟩

theorem root_eq_ok_iff (h : t.WellFormed) : t.root n = .ok r ↔ ∃ ns, t.Climbs n ns r := by
  constructor
  · intro hroot
    obtain ⟨ns, r', hclimbs⟩ := h.exists_climbs (lt_size_of_root hroot)
    cases hclimbs.root.symm.trans hroot
    exact ⟨ns, hclimbs⟩
  · rintro ⟨ns, hclimbs⟩
    exact hclimbs.root

theorem root_eq_of_parent (h : t.WellFormed) (hp : t.parent n = .ok (some p)) :
    t.root n = t.root p := by
  obtain ⟨b, hb, -⟩ := (h.parent_iff n p).mp hp
  obtain ⟨ns, r, hclimbs⟩ := h.exists_climbs hb.lt_size
  rw [hclimbs.root, (hclimbs.up hp).root]

theorem isWithin_of_climbs (h : t.WellFormed) (hclimbs : t.Climbs n ns r) : t.IsWithin n r := by
  induction hclimbs with
  | top => exact .refl
  | up hp _ ih => exact .head ((h.parent_iff _ _).mp hp) ih

/-- Nodes have the same root if links lead from the one to the other, in whatever direction. -/
theorem root_eq_iff (h : t.WellFormed) (hm : m < t.size) :
    t.root m = t.root n ↔ EqvGen (fun k p => t.Owns p k) m n := by
  constructor
  · intro hsame
    obtain ⟨ms, r, hclimbs⟩ := h.exists_climbs hm
    obtain ⟨ns, hclimbs'⟩ := h.root_eq_ok_iff.mp (hsame.symm.trans hclimbs.root)
    have hup : EqvGen (fun k p => t.Owns p k) m r :=
      EqvGen.reflTransGen_le_eqvGen _ _ _ (h.isWithin_of_climbs hclimbs)
    have hup' : EqvGen (fun k p => t.Owns p k) n r :=
      EqvGen.reflTransGen_le_eqvGen _ _ _ (h.isWithin_of_climbs hclimbs')
    exact .trans _ _ _ hup (.symm _ _ hup')
  · intro hlinks
    clear hm
    induction hlinks with
    | rel k p howns => exact h.root_eq_of_parent ((h.parent_iff k p).mpr howns)
    | refl => rfl
    | symm _ _ _ ih => exact ih.symm
    | trans _ _ _ _ _ ih ih' => exact ih.trans ih'

end WellFormed

/-! ## A new application -/

section Attach

variable {e : SharedEffect} {pattern : Text} {children : List NodeId}

/-- Nodes with a parent keep it, since they are none of the new children. -/
theorem AreFree.parent_of_some (h : t.AreFree children) (hp : t.parent n = .ok (some p)) :
    (t.attach e pattern children).parent n = .ok (some p) :=
  (parent_attach h.1).mpr (.inl hp)

/-- A walk that ended at a child goes one step further now. -/
theorem Climbs.attach (e : SharedEffect) (pattern : Text) (h : t.Climbs n ns r)
    (hfree : t.AreFree children) :
    ∃ ns', (t.attach e pattern children).Climbs n ns' (if r ∈ children then t.size else r) := by
  have hgrown : t.IsGrown e pattern children (t.attach e pattern children) := hfree.isGrown
  induction h with
  | @top r hr =>
    split
    next hchild =>
      have hparent : (t.attach e pattern children).parent r = .ok (some t.size) :=
        (parent_attach hfree.1).mpr (.inr ⟨rfl, .inl hchild⟩)
      exact ⟨_, .up hparent (.top (parent_eq_ok.mpr ⟨_, hgrown.application, rfl⟩))⟩
    next hchild =>
      obtain ⟨node, hnode, hparent⟩ := parent_eq_ok.mp hr
      have hkept := hgrown.kept r (lt_size_of_node? hnode) hchild
      exact ⟨_, .top (parent_eq_ok.mpr ⟨node, hkept.trans hnode, hparent⟩)⟩
  | up hp _ ih =>
    obtain ⟨ns', hclimbs⟩ := ih
    exact ⟨_, .up (hfree.parent_of_some hp) hclimbs⟩

theorem WellFormed.root_attach (h : t.WellFormed) (hfree : t.AreFree children)
    (hroot : t.root m = .ok r) : (t.attach e pattern children).root m =
      .ok (if r ∈ children then t.size else r) := by
  obtain ⟨ns, hclimbs⟩ := h.root_eq_ok_iff.mp hroot
  obtain ⟨ns', hclimbs'⟩ := hclimbs.attach e pattern hfree
  exact hclimbs'.root

/-- The new application has no parent, and it is the parent of its ghost. -/
theorem AreFree.climbs_new (e : SharedEffect) (pattern : Text) (h : t.AreFree children) :
    (t.attach e pattern children).Climbs t.size [t.size] t.size ∧
      (t.attach e pattern children).Climbs (t.size + 1) [t.size + 1, t.size] t.size := by
  have hgrown : t.IsGrown e pattern children (t.attach e pattern children) := h.isGrown
  have hnew : (t.attach e pattern children).Climbs t.size [t.size] t.size :=
    .top (parent_eq_ok.mpr ⟨_, hgrown.application, rfl⟩)
  exact ⟨hnew, .up (parent_eq_ok.mpr ⟨_, hgrown.ghost, rfl⟩) hnew⟩

/-- The new application is the root of itself, its ghost and what its children were roots of. -/
theorem WellFormed.root_attach_eq_size_iff (h : t.WellFormed) (hfree : t.AreFree children) :
    (t.attach e pattern children).root m = .ok t.size ↔
      m = t.size ∨ m = t.size + 1 ∨ ∃ c ∈ children, t.root m = .ok c := by
  obtain ⟨hnew, hghost⟩ := hfree.climbs_new e pattern
  constructor
  · intro hroot
    rcases Nat.lt_or_ge m t.size with hm | hm
    · obtain ⟨ns, r, hclimbs⟩ := h.exists_climbs hm
      have hroot' := hroot.symm.trans (h.root_attach hfree hclimbs.root)
      split at hroot'
      next hr => exact .inr (.inr ⟨r, hr, hclimbs.root⟩)
      next =>
        have hr := lt_size_of_parent hclimbs.parent_root
        exact absurd (Except.ok.inj hroot').symm (Nat.ne_of_lt hr)
    · have hlt : m < t.size + 2 := size_attach t e pattern children ▸ lt_size_of_root hroot
      rcases Nat.eq_or_lt_of_le hm with heq | hgt
      · exact .inl heq.symm
      · exact .inr (.inl (Nat.le_antisymm (Nat.le_of_lt_succ hlt) hgt))
  · rintro (rfl | rfl | ⟨c, hc, hroot⟩)
    · exact hnew.root
    · exact hghost.root
    · rw [h.root_attach hfree hroot, if_pos hc]

end Attach

/-! ## The law -/

/-- In every tree that can be built, the walk from an existing node along the parents meets no node
twice and ends at the root, which has no parent and from which children and ghosts lead to the node.
Two nodes have the same root exactly if such links connect them. An application that is added
becomes the root of itself, of its ghost and of the nodes whose root was one of its children, and
all other nodes keep their root. -/
theorem walks_along_parents_end_at_roots (steps : List Step) :
    let t := build steps
    (∀ n < t.size, ∃ ns r, t.Climbs n ns r ∧ ns.Nodup ∧ t.root n = .ok r ∧
      t.parent r = .ok none ∧ t.IsWithin n r) ∧
    (∀ m < t.size, ∀ n, t.root m = t.root n ↔ EqvGen (fun k p => t.Owns p k) m n) ∧
    ∀ e pattern children n u, (addEffect e pattern children).run.run t = (.ok n, u) →
      (∀ m, u.root m = .ok n ↔
        m = n ∨ (∃ a, u.Applies n a ∧ m = a.ghost) ∨ ∃ c ∈ children, t.root m = .ok c) ∧
      ∀ m < t.size, (∀ c ∈ children, t.root m ≠ .ok c) → u.root m = t.root m := by
  intro t
  have ht : t.WellFormed := wellFormed_build steps
  refine ⟨fun n hn => ?_, fun m hm n => ht.root_eq_iff hm,
    fun e pattern children n u hrun => ?_⟩
  · obtain ⟨ns, r, hclimbs⟩ := ht.exists_climbs hn
    exact ⟨ns, r, hclimbs, hclimbs.nodup, hclimbs.root, hclimbs.parent_root,
      ht.isWithin_of_climbs hclimbs⟩
  · obtain ⟨⟨-, hfree⟩, rfl, rfl⟩ := run_addEffect_eq_ok.mp hrun
    have hghost : ∀ m, (∃ a, (t.attach e pattern children).Applies t.size a ∧ m = a.ghost) ↔
        m = t.size + 1 := by
      intro m
      have hnew : (t.attach e pattern children).Applies t.size _ :=
        applies_attach.mpr (.inr ⟨rfl, rfl⟩)
      constructor
      · rintro ⟨a, ha, rfl⟩
        rw [ha.unique hnew]
      · rintro rfl
        exact ⟨_, hnew, rfl⟩
    refine ⟨fun m => ?_, fun m hm hother => ?_⟩
    · rw [ht.root_attach_eq_size_iff hfree, hghost]
    · obtain ⟨ns, r, hclimbs⟩ := ht.exists_climbs hm
      have hr : r ∉ children := fun hr => hother r hr hclimbs.root
      rw [ht.root_attach hfree hclimbs.root, if_neg hr, hclimbs.root]

/-- A match with one argument as a child of another match, behind an argument that stays alone. -/
def nestedSteps : List Step :=
  [.addArgument {}, .addEffectWithParameters unaryEffect [], .addEffect unaryEffect [] [2],
    .addArgument {}]

/-- The walk from the ghost of the inner match goes back one node and then forward two. When the
outer match becomes a child in turn, it goes one step further. -/
theorem ghost_climbs_back_and_then_forward :
    let t := build nestedSteps
    t.Climbs 3 [3, 2, 4] 4 ∧ t.root 3 = .ok 4 ∧ t.root 1 = t.root 5 ∧ t.root 6 ≠ t.root 3 ∧
      ∃ u, (addEffect unaryEffect [] [4]).run.run t = (.ok 7, u) ∧ u.root 3 = .ok 7 ∧
        u.root 6 = .ok 6 := by
  intro t
  have hinner : t.Applies 2 ⟨unaryEffect, [], [1], 3⟩ := application?_eq_some.mp (by decide +kernel)
  have houter : t.Applies 4 ⟨unaryEffect, [], [2], 5⟩ := application?_eq_some.mp (by decide +kernel)
  have hwalk : t.Climbs 3 [3, 2, 4] 4 :=
    .up (by decide +kernel) (.up (by decide +kernel) (.top (by decide +kernel)))
  have halone : t.root 6 = .ok 6 := by decide +kernel
  have hsize : 6 < t.size := by decide +kernel
  obtain ⟨hwalks, hlinks, hadd⟩ := walks_along_parents_end_at_roots nestedSteps
  obtain ⟨ns, r, hclimbs, -, hroot, -⟩ := hwalks 3 (Nat.lt_trans (by decide) hsize)
  obtain ⟨-, rfl⟩ := hwalk.unique hclimbs
  have hsame : t.root 1 = t.root 5 := by
    refine (hlinks 1 (Nat.lt_trans (by decide) hsize) 5).mpr (.trans _ 4 _ (.trans _ 2 _ ?_ ?_) ?_)
    · exact .rel _ _ ⟨_, hinner, .inl List.mem_cons_self⟩
    · exact .rel _ _ ⟨_, houter, .inl List.mem_cons_self⟩
    · exact .symm _ _ (.rel _ _ ⟨_, houter, .inr rfl⟩)
  have hrun : (addEffect unaryEffect [] [4]).run.run t =
      (.ok 7, t.attach unaryEffect [] [4]) :=
    Prod.ext (by decide +kernel) (by decide +kernel)
  obtain ⟨hjoined, hother⟩ := hadd _ _ _ _ _ hrun
  refine ⟨hwalk, hroot, hsame, ?_, _, hrun, ?_, ?_⟩
  · rw [halone, hroot]
    decide
  · exact (hjoined 3).mpr (.inr (.inr ⟨4, List.mem_cons_self, hroot⟩))
  · rw [hother 6 hsize fun c hc => ?_, halone]
    rw [List.mem_singleton.mp hc, halone]
    decide

end SnippetEngine.MatchTree
