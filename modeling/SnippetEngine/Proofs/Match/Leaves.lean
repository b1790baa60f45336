-- The leaves of a match: the arguments below its node, from left to right and each of them once. They
-- decide whether the match is complete and whether it is empty, and a text written elsewhere changes
-- neither.
import Mathlib.Data.List.Pairwise
import SnippetEngine.Proofs.Match.Below

namespace SnippetEngine

open Relation

/-! ## The arguments of a shape -/

namespace Shape

theorem argumentsOfAll_eq (ss : List Shape) : argumentsOfAll ss = ss.flatMap arguments := by
  induction ss with
  | nil => rfl
  | cons s ss ih => rw [argumentsOfAll, List.flatMap_cons, ih]

mutual

theorem isComplete_eq (s : Shape) : s.isComplete = s.arguments.all (·.2.isBound) := by
  cases s with
  | argument n a => simp [isComplete, arguments]
  | application n a children => rw [isComplete, arguments, areComplete_eq children]

theorem areComplete_eq (ss : List Shape) :
    areComplete ss = (argumentsOfAll ss).all (·.2.isBound) := by
  cases ss with
  | nil => rfl
  | cons s ss =>
    rw [areComplete, argumentsOfAll, List.all_append, isComplete_eq s, areComplete_eq ss]

end

mutual

theorem isEmpty_eq (s : Shape) : s.isEmpty = s.arguments.all (!·.2.isBound) := by
  cases s with
  | argument n a => simp [isEmpty, arguments]
  | application n a children => rw [isEmpty, arguments, areEmpty_eq children]

theorem areEmpty_eq (ss : List Shape) :
    areEmpty ss = (argumentsOfAll ss).all (!·.2.isBound) := by
  cases ss with
  | nil => rfl
  | cons s ss => rw [areEmpty, argumentsOfAll, List.all_append, isEmpty_eq s, areEmpty_eq ss]

end

end Shape

namespace MatchTree

variable {t : MatchTree} {n : NodeId}

theorem shape_eq_ok {s : Shape} : t.shape n = .ok s ↔ t.shape? n = some s := by
  unfold shape
  rcases t.shape? n with _ | s'
  · simp
  · simp

/-! ## What is read off the shape -/

section Answers

variable {s : Shape}

theorem leaves_of_shape? (h : t.shape? n = some s) : t.leaves n = .ok s.leaves := by
  rw [leaves, shape_eq_ok.mpr h]
  rfl

theorem isComplete_of_shape? (h : t.shape? n = some s) : t.isComplete n = .ok s.isComplete := by
  rw [isComplete, shape_eq_ok.mpr h]
  rfl

theorem isEmpty_of_shape? (h : t.shape? n = some s) : t.isEmpty n = .ok s.isEmpty := by
  rw [isEmpty, shape_eq_ok.mpr h]
  rfl

theorem equals_of_shape? {u : MatchTree} {m : NodeId} {s' : Shape} (h : t.shape? n = some s)
    (h' : u.shape? m = some s') : t.equals n u m = .ok (s.agrees s') := by
  rw [equals, shape_eq_ok.mpr h, shape_eq_ok.mpr h']
  rfl

end Answers

/-! ## The leaves below a node -/

/-- The leaves of the match at a node; none if there is no match. -/
def leavesBelow (t : MatchTree) (n : NodeId) : List NodeId := (t.shape? n).elim [] Shape.leaves

theorem leavesBelow_of_shape? {s : Shape} (h : t.shape? n = some s) :
    t.leavesBelow n = s.leaves := by
  unfold leavesBelow
  rw [h]
  rfl

/-- The node is that of an argument. -/
def IsArgument (t : MatchTree) (n : NodeId) : Prop := ∃ a, t.argument? n = .ok (some a)

/-- The node is that of an argument with a text that is not empty. -/
def IsBound (t : MatchTree) (n : NodeId) : Prop :=
  ∃ a, t.argument? n = .ok (some a) ∧ a.isBound = true

/-- For some application, the node `l` is below a child that stands before the one that the node `m`
is below. -/
def IsLeftOf (t : MatchTree) (l m : NodeId) : Prop :=
  ∃ p a c d, t.Applies p a ∧ [c, d].Sublist a.children ∧ t.IsBelow l c ∧ t.IsBelow m d

theorem leavesBelow_of_node?_eq_none (h : t.node? n = none) : t.leavesBelow n = [] := by
  unfold leavesBelow shape?
  rw [h]
  rfl

theorem leavesBelow_of_argument? {a : Argument} (h : t.argument? n = .ok (some a)) :
    t.leavesBelow n = [n] := by
  obtain ⟨node, hnode, hk⟩ := argument?_eq_some.mp h
  exact leavesBelow_of_shape? (shape?_argument hnode hk)

theorem not_isArgument_of_node?_eq_none (h : t.node? n = none) : ¬ t.IsArgument n := by
  rintro ⟨a, ha⟩
  obtain ⟨node, hnode, -⟩ := argument?_eq_some.mp ha
  cases h.symm.trans hnode

theorem IsLeftOf.irrefl {m : NodeId} (hleft : t.IsLeftOf m m) (h : t.WellFormed) : False := by
  obtain ⟨p, a, c, d, happlies, hsub, hc, hd⟩ := hleft
  have heq := h.eq_of_isBelow happlies (hsub.subset (by simp)) (hsub.subset (by simp)) hc hd
  have hne := (h.distinct p a happlies).sublist hsub
  simp [heq] at hne

namespace WellFormed

/-- The leaves of an application are those of its children. -/
theorem leavesBelow_application (h : t.WellFormed) {a : Application} (happlies : t.Applies n a) :
    t.leavesBelow n = a.children.flatMap t.leavesBelow := by
  obtain ⟨ss, hss, hshape⟩ := h.exists_shape_application happlies
  rw [leavesBelow_of_shape? hshape, Shape.leaves, Shape.arguments, Shape.argumentsOfAll_eq,
    List.map_flatMap]
  generalize a.children = cs at hss
  clear hshape
  induction hss with
  | nil => rfl
  | cons hc _ ih =>
    rw [List.flatMap_cons, List.flatMap_cons, ih, leavesBelow_of_shape? hc]
    rfl

theorem mem_leavesBelow (h : t.WellFormed) {m : NodeId} :
    m ∈ t.leavesBelow n ↔ t.IsArgument m ∧ t.IsBelow m n := by
  apply h.mem_iff_isBelow
  · intro n a happlies m
    have hno : ¬ (m = n ∧ t.IsArgument n) := by
      rintro ⟨-, b, hb⟩
      exact not_applies_of_argument? hb a happlies
    rw [h.leavesBelow_application happlies, List.mem_flatMap]
    exact (or_iff_left hno).symm
  · intro n hnone m
    rcases t.node_cases n with hnode | ⟨a, ha⟩ | ⟨a, happlies⟩
    · rw [leavesBelow_of_node?_eq_none hnode]
      exact iff_of_false (fun hm => nomatch hm) fun hm => not_isArgument_of_node?_eq_none hnode hm.2
    · rw [leavesBelow_of_argument? ha, List.mem_singleton]
      exact (and_iff_left ⟨a, ha⟩).symm
    · exact absurd happlies (hnone a)

/-- The leaves stand from left to right. -/
theorem pairwise_leavesBelow (h : t.WellFormed) (n : NodeId) :
    (t.leavesBelow n).Pairwise t.IsLeftOf := by
  induction n using Nat.strongRecOn with
  | ind n ih =>
    rcases t.node_cases n with hnode | ⟨a, ha⟩ | ⟨a, happlies⟩
    · rw [leavesBelow_of_node?_eq_none hnode]
      exact .nil
    · rw [leavesBelow_of_argument? ha]
      exact List.pairwise_singleton _ _
    · rw [h.leavesBelow_application happlies, List.pairwise_flatMap]
      refine ⟨fun c hc => ih c (h.earlier n a happlies c hc), ?_⟩
      rw [List.pairwise_iff_forall_sublist]
      intro c d hsub l hl m hm
      exact ⟨n, a, c, d, happlies, hsub, (h.mem_leavesBelow.mp hl).2, (h.mem_leavesBelow.mp hm).2⟩

theorem nodup_leavesBelow (h : t.WellFormed) (n : NodeId) : (t.leavesBelow n).Nodup := by
  refine (h.pairwise_leavesBelow n).imp fun {l m} hleft heq => ?_
  subst heq
  exact hleft.irrefl h

/-- The arguments of the match at a node are those that stand at its leaves. -/
theorem exists_arguments (h : t.WellFormed) (hn : n < t.size) :
    ∃ s, t.shape? n = some s ∧ ∀ na ∈ s.arguments, t.argument? na.1 = .ok (some na.2) := by
  apply h.exists_shape (motive := fun _ s =>
    ∀ na ∈ s.arguments, t.argument? na.1 = .ok (some na.2)) ?_ ?_ hn
  · intro n a ha na hna
    cases List.mem_singleton.mp hna
    exact ha
  · intro n a ss _ hss na hna
    rw [Shape.arguments, Shape.argumentsOfAll_eq] at hna
    obtain ⟨s, hs, hna⟩ := List.mem_flatMap.mp hna
    obtain ⟨c, -, -, hall⟩ := exists_left_of_forall₂ hss hs
    exact hall na hna

end WellFormed

/-! ## Completeness and emptiness -/

namespace WellFormed

/-- The answers to the three questions about an existing node. -/
theorem answers (h : t.WellFormed) (hn : n < t.size) :
    t.leaves n = .ok (t.leavesBelow n) ∧
      (∃ b, t.isComplete n = .ok b ∧ (b = true ↔ ∀ l ∈ t.leavesBelow n, t.IsBound l)) ∧
      ∃ b, t.isEmpty n = .ok b ∧ (b = true ↔ ∀ l ∈ t.leavesBelow n, ¬ t.IsBound l) := by
  obtain ⟨s, hs, harguments⟩ := h.exists_arguments hn
  have hbound : ∀ na ∈ s.arguments, t.IsBound na.1 ↔ na.2.isBound = true := by
    intro na hna
    constructor
    · rintro ⟨a, ha, hbound⟩
      cases (harguments na hna).symm.trans ha
      exact hbound
    · intro hbound
      exact ⟨na.2, harguments na hna, hbound⟩
  rw [leavesBelow_of_shape? hs, Shape.leaves, List.forall_mem_map, List.forall_mem_map]
  refine ⟨leaves_of_shape? hs, ⟨s.isComplete, isComplete_of_shape? hs, ?_⟩, s.isEmpty,
    isEmpty_of_shape? hs, ?_⟩
  · rw [s.isComplete_eq, List.all_eq_true]
    exact forall₂_congr fun na hna => (hbound na hna).symm
  · rw [s.isEmpty_eq, List.all_eq_true]
    exact forall₂_congr fun na hna => by rw [hbound na hna]; simp

end WellFormed

/-! ## Writing texts -/

theorem setArgument_of_applies {a : Application} {text : Option Text} (h : t.Applies n a) :
    (setArgument n text).run.run t = (.ok false, t) := by
  have hnone : t.argument? n = .ok none := by
    obtain ⟨node, hnode, hk⟩ := h
    unfold argument? MatchTree.node
    rw [hnode, ok_bind, hk]
    rfl
  rw [run_setArgument, hnone]

theorem setArgument_of_argument? {a : Argument} {text : Option Text}
    (h : t.argument? n = .ok (some a)) : (setArgument n text).run.run t =
      (.ok true, t.update n ({ · with kind := .argument { a with text } })) := by
  rw [run_setArgument, h]

theorem argument?_update_of_argument? {a b : Argument} (h : t.argument? n = .ok (some a)) :
    (t.update n ({ · with kind := .argument b })).argument? n = .ok (some b) := by
  obtain ⟨node, hnode, -⟩ := argument?_eq_some.mp h
  rw [argument?_eq_some, node?_update, if_pos rfl, hnode]
  exact ⟨_, rfl, rfl⟩

/-- A text that is written at a node leaves all other nodes as they are. -/
theorem node?_setArgument {l m : NodeId} (text : Option Text) (hm : t.IsArgument l → m ≠ l) :
    ((setArgument l text).run.run t).2.node? m = t.node? m := by
  rw [run_setArgument]
  rcases hl : t.argument? l with err | _ | a
  · rfl
  · rfl
  · exact (node?_update t l _ m).trans (if_neg (hm ⟨a, hl⟩).symm)

/-- Trees with the same nodes below a node give the same answers to the questions about it. -/
theorem answers_congr {u : MatchTree} (h : ∀ m, t.IsBelow m n → u.node? m = t.node? m) :
    u.isComplete n = t.isComplete n ∧ u.isEmpty n = t.isEmpty n ∧ u.leaves n = t.leaves n := by
  have hshape : u.shape n = t.shape n := by
    unfold shape
    rw [shape?_congr fun m hm => by rw [h m hm]]
  unfold isComplete isEmpty leaves
  rw [hshape]
  exact ⟨rfl, rfl, rfl⟩

/-! ## The law -/

/-- In every tree that can be built, the leaves of a node are the arguments below it, from left to
right, each once, and no ghost is among them unless the node itself is that ghost. The match is
complete if all leaves are bound and empty if none is. A text written at another node changes none
of this, and at an application nothing is written. -/
theorem leaves_decide_completeness_and_emptiness (steps : List Step) {n : NodeId}
    (hn : n < (build steps).size) :
    let t := build steps
    ∃ (ls : List NodeId) (complete empty : Bool), t.leaves n = .ok ls ∧
      t.isComplete n = .ok complete ∧ t.isEmpty n = .ok empty ∧
      (∀ m, m ∈ ls ↔ t.IsArgument m ∧ t.IsBelow m n) ∧ ls.Nodup ∧ ls.Pairwise t.IsLeftOf ∧
      (∀ p a, t.Applies p a → a.ghost ∈ ls → a.ghost = n) ∧
      (complete = true ↔ ∀ l ∈ ls, t.IsBound l) ∧ (empty = true ↔ ∀ l ∈ ls, ¬ t.IsBound l) ∧
      (complete = true ∧ empty = true ↔ ls = []) ∧
      (∀ l a text, t.Applies l a → (setArgument l text).run.run t = (.ok false, t)) ∧
      (∀ l a text, t.argument? l = .ok (some a) →
        ∃ u, (setArgument l text).run.run t = (.ok true, u) ∧
          u.argument? l = .ok (some { a with text })) ∧
      ∀ l text b u, (setArgument l text).run.run t = (.ok b, u) → l ∉ ls →
        u.isComplete n = t.isComplete n ∧ u.isEmpty n = t.isEmpty n ∧ u.leaves n = t.leaves n ∧
          ∀ m ∈ ls, u.argument? m = t.argument? m := by
  intro t
  have ht : t.WellFormed := wellFormed_build steps
  obtain ⟨hleaves, ⟨complete, hcomplete, hbound⟩, empty, hempty, hunbound⟩ := ht.answers hn
  refine ⟨t.leavesBelow n, complete, empty, hleaves, hcomplete, hempty,
    fun m => ht.mem_leavesBelow, ht.nodup_leavesBelow n, ht.pairwise_leavesBelow n,
    fun p a happlies hghost => ?_, hbound, hunbound, ?_,
    fun l a text happlies => setArgument_of_applies happlies, fun l a text ha => ?_,
    fun l text b u hrun hl => ?_⟩
  · exact ht.eq_of_ghost_isBelow happlies (ht.mem_leavesBelow.mp hghost).2
  · rw [hbound, hunbound, List.eq_nil_iff_forall_not_mem]
    exact ⟨fun ⟨hall, hnone⟩ l hl => hnone l hl (hall l hl),
      fun hnil => ⟨fun l hl => absurd hl (hnil l), fun l hl => absurd hl (hnil l)⟩⟩
  · exact ⟨_, setArgument_of_argument? ha, argument?_update_of_argument? ha⟩
  · -- A node below the one asked about that is written would be a leaf of it.
    have hsame : ∀ m, t.IsBelow m n → u.node? m = t.node? m := by
      intro m hm
      have hkept : t.IsArgument l → m ≠ l := by
        rintro hargument rfl
        exact hl (ht.mem_leavesBelow.mpr ⟨hargument, hm⟩)
      have hu := node?_setArgument text hkept
      rwa [hrun] at hu
    obtain ⟨hcomplete', hempty', hleaves'⟩ := answers_congr hsame
    refine ⟨hcomplete', hempty', hleaves', fun m hm => ?_⟩
    unfold argument? MatchTree.node
    rw [hsame m (ht.mem_leavesBelow.mp hm).2]

/-- A match of an argument with a text, a match without arguments, and an argument without a text. -/
def halfBoundSteps : List Step :=
  [.addArgument { text := some ['a'] }, .addEffect ⟨0, { id := ['i'] }⟩ [] [], .addArgument {},
    .addEffect ⟨1, { id := ['e'], parameters := [{ name := ['x'] }, { name := ['y'] },
      { name := ['z'] }] }⟩ [] [0, 1, 3]]

/-- The match stays neither complete nor empty when its ghost gets a text. -/
theorem ghost_of_a_half_bound_match_is_no_leaf :
    let t := build halfBoundSteps
    4 < t.size ∧ t.leaves 4 = .ok [0, 3] ∧ (t.IsBound 0 ∧ ¬ t.IsBound 3) ∧
      ∃ u, (setArgument 5 (some ['g'])).run.run t = (.ok true, u) ∧ u.leaves 4 = .ok [0, 3] ∧
        u.isComplete 4 = .ok false ∧ u.isEmpty 4 = .ok false := by
  intro t
  have hsize : 4 < t.size := by decide +kernel
  have hleaves : t.leaves 4 = .ok [0, 3] := by decide +kernel
  have hcomplete : t.isComplete 4 = .ok false := by decide +kernel
  have hempty : t.isEmpty 4 = .ok false := by decide +kernel
  have hghost : t.argument? 5 = .ok (some {}) := by decide +kernel
  obtain ⟨ls, complete, empty, hls, hcomplete', -, -, -, -, -, hbound, -, -, -, hset, hkept⟩ :=
    leaves_decide_completeness_and_emptiness halfBoundSteps hsize
  cases hleaves.symm.trans hls
  have hfirst : t.IsBound 0 := ⟨{ text := some ['a'] }, by decide +kernel, rfl⟩
  have hsecond : ¬ t.IsBound 3 := by
    intro hsecond
    have hall : ∀ l ∈ [0, 3], t.IsBound l := by simp [hfirst, hsecond]
    cases hcomplete.symm.trans (hcomplete'.trans (congrArg Except.ok (hbound.mpr hall)))
  obtain ⟨u, hrun, -⟩ := hset 5 {} (some ['g']) hghost
  obtain ⟨hcomplete'', hempty'', hleaves'', -⟩ := hkept 5 _ _ _ hrun (by simp)
  exact ⟨hsize, hleaves, ⟨hfirst, hsecond⟩, u, hrun, hleaves''.trans hleaves,
    hcomplete''.trans hcomplete, hempty''.trans hempty⟩

end MatchTree

end SnippetEngine
