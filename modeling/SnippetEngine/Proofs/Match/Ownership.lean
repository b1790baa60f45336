-- The ownership of nodes. A tree is built from the empty one by adding nodes, copying matches and
-- editing texts and classifications. Each step keeps the invariant `WellFormed`, so every tree that
-- can be built has it: nodes that apply effects own their children and their ghost, and nothing
-- else is owned.
import Mathlib.Logic.Relation
import SnippetEngine.Proofs.Match.Nodes

namespace SnippetEngine.MatchTree

/-! ## The invariant -/

/-- The node `n` is a child of the node `p`. -/
def IsChild (t : MatchTree) (n p : NodeId) : Prop := ∃ a, t.Applies p a ∧ n ∈ a.children

/-- The node `p` has the node `n` as a child or as its ghost. -/
def Owns (t : MatchTree) (p n : NodeId) : Prop :=
  ∃ a, t.Applies p a ∧ (n ∈ a.children ∨ n = a.ghost)

structure WellFormed (t : MatchTree) : Prop where
  arity : ∀ p a, t.Applies p a → a.children.length = a.effect.effect.parameters.length
  distinct : ∀ p a, t.Applies p a → a.children.Nodup
  /-- Children exist, since they stand before their parent. -/
  earlier : ∀ p a, t.Applies p a → ∀ c ∈ a.children, c < p
  ghost_next : ∀ p a, t.Applies p a → a.ghost = p + 1
  ghost_leaf : ∀ p a, t.Applies p a →
    ∃ text, t.argument? a.ghost = .ok (some { parameter := none, text })
  ghost_no_child : ∀ p a, t.Applies p a → ∀ q, ¬ t.IsChild a.ghost q
  parent_iff : ∀ n p, t.parent n = .ok (some p) ↔ t.Owns p n

/-- Two owners of a node are the one parent that the node has. -/
theorem WellFormed.owner_unique {t : MatchTree} (h : t.WellFormed) {p q n : NodeId}
    (hp : t.Owns p n) (hq : t.Owns q n) : p = q := by
  have h1 := (h.parent_iff n p).mpr hp
  have h2 := (h.parent_iff n q).mpr hq
  rw [h1] at h2
  cases h2
  rfl

/-- A walk from child to parent goes to later and later nodes. -/
theorem WellFormed.lt_of_isChild {t : MatchTree} (h : t.WellFormed) {n p : NodeId}
    (hc : Relation.TransGen t.IsChild n p) : n < p := by
  induction hc with
  | single hnp =>
    obtain ⟨a, ha, hn⟩ := hnp
    exact h.earlier _ a ha _ hn
  | tail _ hpq ih =>
    obtain ⟨a, ha, hn⟩ := hpq
    exact Nat.lt_trans ih (h.earlier _ a ha _ hn)

theorem wellFormed_empty : WellFormed {} := by
  have hnone : ∀ p a, ¬ Applies {} p a := by
    rintro p a ⟨node, hn, _⟩
    simp [node?] at hn
  refine ⟨fun p a h => absurd h (hnone p a), fun p a h => absurd h (hnone p a),
    fun p a h => absurd h (hnone p a), fun p a h => absurd h (hnone p a),
    fun p a h => absurd h (hnone p a), fun p a h => absurd h (hnone p a), fun n p => ?_⟩
  rw [parent_eq_ok]
  constructor
  · rintro ⟨node, hn, _⟩
    simp [node?] at hn
  · rintro ⟨a, ha, _⟩
    exact absurd ha (hnone p a)

/-! ## Steps that link no nodes -/

/-- The tree `u` has the applications and the parents of `t`, and its arguments up to their
texts. -/
structure SameLinks (t u : MatchTree) : Prop where
  applies_iff : ∀ p a, u.Applies p a ↔ t.Applies p a
  parent_iff : ∀ n p, u.parent n = .ok (some p) ↔ t.parent n = .ok (some p)
  parameter : ∀ n p text, t.argument? n = .ok (some ⟨p, text⟩) →
    ∃ text', u.argument? n = .ok (some ⟨p, text'⟩)

theorem sameLinks_refl (t : MatchTree) : SameLinks t t where
  applies_iff _ _ := .rfl
  parent_iff _ _ := .rfl
  parameter _ _ text h := ⟨text, h⟩

theorem SameLinks.trans {t u v : MatchTree} (h : SameLinks t u) (h' : SameLinks u v) :
    SameLinks t v where
  applies_iff p a := (h'.applies_iff p a).trans (h.applies_iff p a)
  parent_iff n p := (h'.parent_iff n p).trans (h.parent_iff n p)
  parameter n p text ht := by
    obtain ⟨text', hu⟩ := h.parameter n p text ht
    exact h'.parameter n p text' hu

theorem SameLinks.lt_size {t u : MatchTree} (h : SameLinks t u) {n : NodeId} (hn : n < t.size) :
    n < u.size := by
  rcases hnode : t.node? n with _ | node
  · exact absurd hn (Nat.not_lt.mpr (node?_eq_none.mp hnode))
  · rcases hk : node.kind with ⟨p, text⟩ | a
    · obtain ⟨text', hu⟩ := h.parameter n p text (argument?_eq_some.mpr ⟨node, hnode, hk⟩)
      obtain ⟨node', hnode', -⟩ := argument?_eq_some.mp hu
      exact lt_size_of_node? hnode'
    · exact ((h.applies_iff n a).mpr ⟨node, hnode, hk⟩).lt_size

theorem WellFormed.of_sameLinks {t u : MatchTree} (h : t.WellFormed) (hs : SameLinks t u) :
    u.WellFormed := by
  obtain ⟨happ, hpar, harg⟩ := hs
  have hchild : ∀ n p, u.IsChild n p ↔ t.IsChild n p := fun n p => by simp only [IsChild, happ]
  have howns : ∀ p n, u.Owns p n ↔ t.Owns p n := fun p n => by simp only [Owns, happ]
  refine ⟨fun p a ha => ?_, fun p a ha => ?_, fun p a ha => ?_, fun p a ha => ?_,
    fun p a ha => ?_, fun p a ha q => ?_, fun n p => ?_⟩
  · exact h.arity p a ((happ p a).mp ha)
  · exact h.distinct p a ((happ p a).mp ha)
  · exact h.earlier p a ((happ p a).mp ha)
  · exact h.ghost_next p a ((happ p a).mp ha)
  · obtain ⟨text, ht⟩ := h.ghost_leaf p a ((happ p a).mp ha)
    exact harg _ _ text ht
  · rw [hchild]
    exact h.ghost_no_child p a ((happ p a).mp ha) q
  · rw [hpar, howns]
    exact h.parent_iff n p

/-- A new argument without a parent is neither an application nor owned. -/
theorem sameLinks_push (t : MatchTree) (arg : Argument) :
    SameLinks t (t.push { kind := .argument arg }) := by
  have hold : ∀ n, n < t.size → (t.push { kind := .argument arg }).node? n = t.node? n := by
    intro n hn
    rw [node?_push, if_neg (Nat.ne_of_lt hn)]
  refine ⟨fun p a => ?_, fun n p => ?_, fun n p text hn => ?_⟩
  · constructor
    · rintro ⟨node, hn, hk⟩
      rw [node?_push] at hn
      split at hn
      next => cases hn; cases hk
      next => exact ⟨node, hn, hk⟩
    · rintro ⟨node, hn, hk⟩
      exact ⟨node, (hold p (lt_size_of_node? hn)).trans hn, hk⟩
  · rw [parent_eq_ok, parent_eq_ok]
    constructor
    · rintro ⟨node, hn, hp⟩
      rw [node?_push] at hn
      split at hn
      next => cases hn; cases hp
      next => exact ⟨node, hn, hp⟩
    · rintro ⟨node, hn, hp⟩
      exact ⟨node, (hold n (lt_size_of_node? hn)).trans hn, hp⟩
  · obtain ⟨node, hnode, hk⟩ := argument?_eq_some.mp hn
    exact ⟨text, argument?_eq_some.mpr
      ⟨node, (hold n (lt_size_of_node? hnode)).trans hnode, hk⟩⟩

/-- The change of a node that keeps its parent, and what it is up to the text of an argument. -/
theorem sameLinks_update (t : MatchTree) (m : NodeId) (f : MatchNode → MatchNode)
    (hparent : ∀ node, (f node).parent = node.parent)
    (hkind : ∀ node, t.node? m = some node → (f node).kind = node.kind ∨
      ∃ p text text', node.kind = .argument ⟨p, text⟩ ∧ (f node).kind = .argument ⟨p, text'⟩) :
    SameLinks t (t.update m f) := by
  refine ⟨fun p a => ?_, fun n p => ?_, fun n p text hn => ?_⟩
  · unfold Applies
    rw [node?_update]
    split
    next hm =>
      subst hm
      cases hn : t.node? m with
      | none => simp
      | some node =>
        rcases hkind node hn with hk | ⟨q, text, text', hk, hk'⟩
        · simp [hk]
        · simp [hk, hk']
    next => rfl
  · rw [parent_eq_ok, parent_eq_ok, node?_update]
    split
    next => cases t.node? n <;> simp [hparent]
    next => rfl
  · obtain ⟨node, hnode, hk⟩ := argument?_eq_some.mp hn
    by_cases hm : m = n
    · subst hm
      have hu : (t.update m f).node? m = some (f node) := by simp [node?_update, hnode]
      rcases hkind node hnode with hf | ⟨q, s, s', hs, hs'⟩
      · exact ⟨text, argument?_eq_some.mpr ⟨f node, hu, hf.trans hk⟩⟩
      · rw [hk] at hs
        cases hs
        exact ⟨s', argument?_eq_some.mpr ⟨f node, hu, hs'⟩⟩
    · have hu : (t.update m f).node? n = some node := by simp [node?_update, hm, hnode]
      exact ⟨text, argument?_eq_some.mpr ⟨node, hu, hk⟩⟩

/-! ## A new application -/

section Attach

variable {t : MatchTree} {e : SharedEffect} {pattern : Text} {children : List NodeId}

/-- The applications of the tree after the step: those before it and the new one. -/
theorem applies_attach {p : NodeId} {a : Application} :
    (t.attach e pattern children).Applies p a ↔ t.Applies p a ∨
      p = t.size ∧ a = { effect := e, pattern, children, ghost := t.size + 1 } := by
  unfold Applies
  rw [node?_attach]
  by_cases hp : p = t.size
  · subst hp
    have : t.node? t.size = none := node?_eq_none.mpr (Nat.le_refl _)
    simp [this, eq_comm]
  · by_cases hg : p = t.size + 1
    · subst hg
      have : t.node? (t.size + 1) = none := node?_eq_none.mpr (Nat.le_succ _)
      simp [this]
    · simp only [hp, hg, if_false, false_and, or_false]
      cases t.node? p with
      | none => simp
      | some node => by_cases hc : p ∈ children <;> simp [hc]

/-- The parents of the nodes after the step: the new node for its children and its ghost. -/
theorem parent_attach (hfree : ∀ c ∈ children, t.parent c = .ok none) {n p : NodeId} :
    (t.attach e pattern children).parent n = .ok (some p) ↔
      t.parent n = .ok (some p) ∨ p = t.size ∧ (n ∈ children ∨ n = t.size + 1) := by
  have hlt : ∀ c ∈ children, c < t.size := by
    intro c hc
    obtain ⟨node, hn, _⟩ := parent_eq_ok.mp (hfree c hc)
    exact lt_size_of_node? hn
  rw [parent_eq_ok, parent_eq_ok, node?_attach]
  by_cases hn : n = t.size
  · subst hn
    have hno : t.node? t.size = none := node?_eq_none.mpr (Nat.le_refl _)
    have hnc : t.size ∉ children := fun hc => Nat.lt_irrefl _ (hlt _ hc)
    simp [hno, hnc]
  · by_cases hg : n = t.size + 1
    · subst hg
      have hno : t.node? (t.size + 1) = none := node?_eq_none.mpr (Nat.le_succ _)
      simp [hno, eq_comm]
    · simp only [hn, hg, if_false, or_false]
      by_cases hc : n ∈ children
      · obtain ⟨node, hnode, hp⟩ := parent_eq_ok.mp (hfree n hc)
        simp [hnode, hc, hp, eq_comm]
      · simp [hc]

/-- The arguments that were there before the step. -/
theorem argument?_attach {n : NodeId} {a : Argument} (h : t.argument? n = .ok (some a)) :
    (t.attach e pattern children).argument? n = .ok (some a) := by
  obtain ⟨node, hn, hk⟩ := argument?_eq_some.mp h
  have hlt := lt_size_of_node? hn
  have h1 : n ≠ t.size := Nat.ne_of_lt hlt
  have h2 : n ≠ t.size + 1 := Nat.ne_of_lt (Nat.lt_succ_of_lt hlt)
  rw [argument?_eq_some, node?_attach, if_neg h1, if_neg h2, hn, Option.map_some]
  refine ⟨_, rfl, ?_⟩
  split
  · exact hk
  · exact hk

theorem WellFormed.attach (h : t.WellFormed)
    (harity : children.length = e.effect.parameters.length)
    (hfree : ∀ c ∈ children, t.parent c = .ok none) (hnd : children.Nodup) :
    (t.attach e pattern children).WellFormed := by
  have hlt : ∀ c ∈ children, c < t.size := by
    intro c hc
    obtain ⟨node, hn, _⟩ := parent_eq_ok.mp (hfree c hc)
    exact lt_size_of_node? hn
  -- The ghosts of before are owned, so none of them is among the new children.
  have hghost : ∀ p a, t.Applies p a → a.ghost ∉ children := by
    intro p a ha hc
    have hp := (h.parent_iff a.ghost p).mpr ⟨a, ha, Or.inr rfl⟩
    rw [hfree _ hc] at hp
    cases hp
  refine ⟨fun p a ha => ?_, fun p a ha => ?_, fun p a ha => ?_, fun p a ha => ?_,
    fun p a ha => ?_, fun p a ha q hq => ?_, fun n p => ?_⟩
  · rcases applies_attach.mp ha with ho | ⟨_, rfl⟩
    · exact h.arity p a ho
    · exact harity
  · rcases applies_attach.mp ha with ho | ⟨_, rfl⟩
    · exact h.distinct p a ho
    · exact hnd
  · rcases applies_attach.mp ha with ho | ⟨rfl, rfl⟩
    · exact h.earlier p a ho
    · exact hlt
  · rcases applies_attach.mp ha with ho | ⟨rfl, rfl⟩
    · exact h.ghost_next p a ho
    · rfl
  · rcases applies_attach.mp ha with ho | ⟨_, rfl⟩
    · obtain ⟨text, ht⟩ := h.ghost_leaf p a ho
      exact ⟨text, argument?_attach ht⟩
    · refine ⟨none, argument?_eq_some.mpr
        ⟨{ parent := some t.size, kind := .argument {} }, ?_, rfl⟩⟩
      rw [node?_attach, if_neg (Nat.succ_ne_self _), if_pos rfl]
  · obtain ⟨b, hb, hc⟩ := hq
    rcases applies_attach.mp ha with ho | ⟨_, rfl⟩
    · rcases applies_attach.mp hb with hob | ⟨_, rfl⟩
      · exact h.ghost_no_child p a ho q ⟨b, hob, hc⟩
      · exact hghost p a ho hc
    · have hsmall : t.size + 1 < t.size := by
        rcases applies_attach.mp hb with hob | ⟨_, rfl⟩
        · exact Nat.lt_trans (h.earlier q b hob _ hc) hob.lt_size
        · exact hlt _ hc
      exact absurd hsmall (by simp)
  · rw [parent_attach hfree, h.parent_iff n p]
    constructor
    · rintro (⟨a, ha, hn⟩ | ⟨hp, hn⟩)
      · exact ⟨a, applies_attach.mpr (Or.inl ha), hn⟩
      · exact ⟨_, applies_attach.mpr (Or.inr ⟨hp, rfl⟩), hn⟩
    · rintro ⟨a, ha, hn⟩
      rcases applies_attach.mp ha with ho | ⟨hp, rfl⟩
      · exact Or.inl ⟨a, ho, hn⟩
      · exact Or.inr ⟨hp, hn⟩

end Attach

/-! ## The steps of a construction -/

/-- On a well-formed tree the step leaves a well-formed tree, also if it fails. -/
def Keeps {α : Type} (x : Build α) : Prop := ∀ t, t.WellFormed → (x.run.run t).2.WellFormed

theorem Keeps.wellFormed {α : Type} {x : Build α} {t u : MatchTree} {r : Except Error α}
    (hx : Keeps x) (h : t.WellFormed) (hrun : x.run.run t = (r, u)) : u.WellFormed := by
  have hu := hx t h
  rwa [hrun] at hu

theorem keeps_pure {α : Type} (a : α) : Keeps (pure a) := fun _ h => h

theorem keeps_get : Keeps get := fun _ h => h

theorem keeps_lift {α : Type} (x : Except Error α) : Keeps (liftM x) := by
  intro t h
  rw [run_liftM]
  exact h

theorem keeps_bind {α β : Type} {x : Build α} {f : α → Build β} (hx : Keeps x)
    (hf : ∀ a, Keeps (f a)) : Keeps (x >>= f) := by
  intro t h
  rcases hrun : x.run.run t with ⟨err | a, v⟩
  · rw [run_bind_of_error f hrun]
    exact hx.wellFormed h hrun
  · rw [run_bind_of_ok f hrun]
    exact hf a v (hx.wellFormed h hrun)

theorem keeps_mapM {α β : Type} {f : α → Build β} (hf : ∀ a, Keeps (f a)) (l : List α) :
    Keeps (l.mapM f) := by
  induction l with
  | nil => exact keeps_pure _
  | cons a l ih =>
    rw [List.mapM_cons]
    exact keeps_bind (hf a) fun b => keeps_bind ih fun bs => keeps_pure _

theorem keeps_addArgument (arg : Argument) : Keeps (addArgument arg) :=
  fun t h => h.of_sameLinks (sameLinks_push t arg)

theorem keeps_addEffect (e : SharedEffect) (pattern : Text) (children : List NodeId) :
    Keeps (addEffect e pattern children) := by
  intro t h
  rw [run_addEffect]
  split
  next harity =>
    rcases hc : t.checkDetached [] children with err | _
    · exact h
    · obtain ⟨hfree, hnd⟩ := checkDetached_eq_ok.mp hc
      exact h.attach harity (fun c hcs => (hfree c hcs).1) hnd
  next => exact h

theorem keeps_addEffectWithParameters (e : SharedEffect) (pattern : Text) :
    Keeps (addEffectWithParameters e pattern) :=
  keeps_bind (keeps_mapM (fun _ => keeps_addArgument _) _) fun _ => keeps_addEffect e pattern _

/-- A text that is written links no nodes. -/
theorem sameLinks_setArgument (t : MatchTree) (n : NodeId) (text : Option Text) :
    SameLinks t ((setArgument n text).run.run t).2 := by
  rw [run_setArgument]
  rcases ha : t.argument? n with err | _ | arg
  · exact sameLinks_refl t
  · exact sameLinks_refl t
  · refine sameLinks_update t n _ (fun _ => rfl) fun node hn => Or.inr ?_
    obtain ⟨node', hn', hk⟩ := argument?_eq_some.mp ha
    rw [hn] at hn'
    cases hn'
    exact ⟨arg.parameter, arg.text, text, hk, rfl⟩

theorem sameLinks_setMatchType (t : MatchTree) (n : NodeId) (m : MatchType) :
    SameLinks t ((setMatchType n m).run.run t).2 := by
  rw [run_setMatchType]
  rcases t.node n with err | node
  · exact sameLinks_refl t
  · exact sameLinks_update t n _ (fun _ => rfl) fun _ _ => Or.inl rfl

theorem keeps_setArgument (n : NodeId) (text : Option Text) : Keeps (setArgument n text) :=
  fun t h => h.of_sameLinks (sameLinks_setArgument t n text)

theorem keeps_setMatchType (n : NodeId) (m : MatchType) : Keeps (setMatchType n m) :=
  fun t h => h.of_sameLinks (sameLinks_setMatchType t n m)

mutual

/-- A copy is made of the steps above, one for each part of the match. -/
theorem keeps_copy (matchTypes : NodeId → MatchType) (s : Shape) : Keeps (s.copy matchTypes) := by
  cases s with
  | argument n a =>
    rw [Shape.copy]
    exact keeps_bind (keeps_addArgument a) fun c =>
      keeps_bind (keeps_setMatchType c _) fun _ => keeps_pure c
  | application n a children =>
    rw [Shape.copy]
    exact keeps_bind (keeps_copyAll matchTypes children) fun copies =>
      keeps_bind (keeps_addEffect a.effect a.pattern copies) fun c =>
        keeps_bind (keeps_setMatchType c _) fun _ => keeps_pure c

theorem keeps_copyAll (matchTypes : NodeId → MatchType) (ss : List Shape) :
    Keeps (Shape.copyAll matchTypes ss) := by
  cases ss with
  | nil =>
    rw [Shape.copyAll]
    exact keeps_pure _
  | cons s ss =>
    rw [Shape.copyAll]
    exact keeps_bind (keeps_copy matchTypes s) fun c =>
      keeps_bind (keeps_copyAll matchTypes ss) fun cs => keeps_pure _

end

theorem keeps_copyNode (n : NodeId) : Keeps (copyNode n) := by
  unfold copyNode
  exact keeps_bind keeps_get fun t =>
    keeps_bind (keeps_lift (t.shape n)) fun s => keeps_copy t.matchType s

/-! ## Every tree that can be built -/

inductive Step
  | addArgument (argument : Argument)
  | addEffect (effect : SharedEffect) (pattern : Text) (children : List NodeId)
  | addEffectWithParameters (effect : SharedEffect) (pattern : Text)
  | setArgument (node : NodeId) (text : Option Text)
  | setMatchType (node : NodeId) (matchType : MatchType)
  | copyNode (node : NodeId)

/-- What a step does; its answer is not looked at. -/
def Step.action : Step → Build Unit
  | addArgument a => discard (MatchTree.addArgument a)
  | addEffect e pattern children => discard (MatchTree.addEffect e pattern children)
  | addEffectWithParameters e pattern => discard (MatchTree.addEffectWithParameters e pattern)
  | setArgument n text => discard (MatchTree.setArgument n text)
  | setMatchType n m => MatchTree.setMatchType n m
  | copyNode n => discard (MatchTree.copyNode n)

/-- The tree after a step, also after one that fails. -/
def perform (t : MatchTree) (s : Step) : MatchTree := (s.action.run.run t).2

/-- The tree that the steps build from the empty one. -/
def build (steps : List Step) : MatchTree := steps.foldl perform {}

/-- The tree after a step whose answer is not looked at. -/
theorem perform_of_discard {α : Type} {x : Build α} {s : Step} (h : s.action = discard x)
    (t : MatchTree) : t.perform s = (x.run.run t).2 := by
  unfold perform
  rw [h]
  rcases hrun : x.run.run t with ⟨err | a, u⟩
  · exact congrArg Prod.snd (run_bind_of_error (fun _ => pure ()) hrun)
  · exact congrArg Prod.snd (run_bind_of_ok (fun _ => pure ()) hrun)

theorem keeps_discard {α : Type} {x : Build α} (hx : Keeps x) : Keeps (discard x) :=
  keeps_bind hx fun _ => keeps_pure ()

theorem Step.keeps_action (s : Step) : Keeps s.action := by
  cases s with
  | addArgument a => exact keeps_discard (keeps_addArgument a)
  | addEffect e pattern children => exact keeps_discard (keeps_addEffect e pattern children)
  | addEffectWithParameters e pattern =>
    exact keeps_discard (keeps_addEffectWithParameters e pattern)
  | setArgument n text => exact keeps_discard (keeps_setArgument n text)
  | setMatchType n m => exact keeps_setMatchType n m
  | copyNode n => exact keeps_discard (keeps_copyNode n)

theorem wellFormed_perform {t : MatchTree} (h : t.WellFormed) (s : Step) :
    (t.perform s).WellFormed := s.keeps_action t h

theorem wellFormed_build (steps : List Step) : (build steps).WellFormed := by
  unfold build
  suffices ∀ t : MatchTree, t.WellFormed → (steps.foldl perform t).WellFormed from
    this {} wellFormed_empty
  induction steps with
  | nil => exact fun t h => h
  | cons s steps ih => exact fun t h => ih (t.perform s) (wellFormed_perform h s)

/-! ## The law -/

/-- Whatever steps build a tree, succeeding or failing: its nodes own their children and their
ghosts as `WellFormed` says, a node has at most one owner, and no walk from child to parent comes
back to where it started. -/
theorem every_tree_has_single_owners (steps : List Step) :
    (build steps).WellFormed ∧
      (∀ n p q, (build steps).Owns p n → (build steps).Owns q n → p = q) ∧
      ∀ n, ¬ Relation.TransGen (build steps).IsChild n n := by
  have h := wellFormed_build steps
  refine ⟨h, fun n p q hp hq => h.owner_unique hp hq, fun n hn => ?_⟩
  exact Nat.lt_irrefl n (h.lt_of_isChild hn)

end SnippetEngine.MatchTree
