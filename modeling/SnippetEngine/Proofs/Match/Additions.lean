-- What adding an application does to a tree. It is refused where one of its conditions fails, with
-- the first reason in the order of the children, and nothing is written before all of them have been
-- looked at. Otherwise the tree gets two nodes, the children get their parent, and nothing else
-- changes.
import SnippetEngine.Proofs.Match.Shapes

namespace SnippetEngine.MatchTree

variable {t : MatchTree}

/-! ## Children that are refused -/

/-- Different nodes that exist and have no parent. -/
def AreFree (t : MatchTree) (children : List NodeId) : Prop :=
  (∀ c ∈ children, t.parent c = .ok none) ∧ children.Nodup

/-- The reasons to refuse a child that has others before it. -/
inductive Blames (t : MatchTree) (before : List NodeId) (c : NodeId) : Error → Prop
  | missing : t.size ≤ c → Blames t before c (.noSuchNode c)
  | attached {p : NodeId} : t.parent c = .ok (some p) → Blames t before c (.nodeAlreadyAttached c)
  | repeated : c < t.size → c ∈ before → Blames t before c (.nodeAlreadyAttached c)

/-- The reasons to refuse the application of an effect to children. The number of the children is
looked at first, and then the children one after another. -/
inductive Refuses (t : MatchTree) (e : SharedEffect) (children : List NodeId) : Error → Prop
  | count : children.length ≠ e.effect.parameters.length →
      Refuses t e children
        (.childCountMismatch e.effect.id e.effect.parameters.length children.length)
  | child {before after : List NodeId} {c : NodeId} {err : Error} :
      children.length = e.effect.parameters.length → children = before ++ c :: after →
      t.AreFree before → t.Blames before c err → Refuses t e children err

theorem parent_eq_error {c : NodeId} {err : Error} :
    t.parent c = .error err ↔ t.size ≤ c ∧ err = .noSuchNode c := by
  unfold parent MatchTree.node
  rcases h : t.node? c with _ | node
  · simp [Functor.map, Except.map, node?_eq_none.mp h, eq_comm]
  · have hlt := lt_size_of_node? h
    simp [Functor.map, Except.map, Nat.not_le.mpr hlt]

theorem lt_size_of_parent {c : NodeId} {p : Option NodeId} (h : t.parent c = .ok p) :
    c < t.size := by
  obtain ⟨node, hnode, -⟩ := parent_eq_ok.mp h
  exact lt_size_of_node? hnode

theorem checkDetached_nil_eq_ok {children : List NodeId} :
    t.checkDetached [] children = .ok () ↔ t.AreFree children := by
  rw [checkDetached_eq_ok]
  simp [AreFree]

theorem Blames.congr {before others : List NodeId} {c : NodeId} {err : Error}
    (h : t.Blames before c err) (hsame : ∀ d ∈ before, d ∈ others) : t.Blames others c err := by
  rcases h with hmissing | hparent | ⟨hlt, hc⟩
  · exact .missing hmissing
  · exact .attached hparent
  · exact .repeated hlt (hsame c hc)

theorem free_or_blames (t : MatchTree) (before : List NodeId) (c : NodeId) :
    (t.parent c = .ok none ∧ c ∉ before) ∨ ∃ err, t.Blames before c err := by
  rcases hparent : t.parent c with err | _ | p
  · exact .inr ⟨_, .missing (parent_eq_error.mp hparent).1⟩
  · by_cases hc : c ∈ before
    · exact .inr ⟨_, .repeated (lt_size_of_parent hparent) hc⟩
    · exact .inl ⟨rfl, hc⟩
  · exact .inr ⟨_, .attached hparent⟩

theorem checkDetached_cons_of_free {before cs : List NodeId} {c : NodeId}
    (hparent : t.parent c = .ok none) (hc : c ∉ before) :
    t.checkDetached before (c :: cs) = t.checkDetached (c :: before) cs := by
  rw [checkDetached_cons, hparent, ok_bind]
  simp [hc]

theorem checkDetached_cons_of_blames {before cs : List NodeId} {c : NodeId} {err : Error}
    (h : t.Blames before c err) : t.checkDetached before (c :: cs) = .error err := by
  rw [checkDetached_cons]
  rcases h with hmissing | hparent | ⟨hlt, hc⟩
  · rw [parent_eq_error.mpr ⟨hmissing, rfl⟩]
    rfl
  · rw [hparent]
    rfl
  · obtain ⟨node, hnode⟩ := exists_node? hlt
    rw [parent_eq_ok.mpr ⟨node, hnode, rfl⟩, ok_bind]
    simp [hc]

/-- The check fails at the first child that is refused, for the reason for which that child is. -/
theorem checkDetached_eq_error {before children : List NodeId} {err : Error} :
    t.checkDetached before children = .error err ↔ ∃ front c behind,
      children = front ++ c :: behind ∧ t.checkDetached before front = .ok () ∧
        t.Blames (front ++ before) c err := by
  constructor
  · intro h
    induction children generalizing before with
    | nil => cases h
    | cons d ds ih =>
      rcases t.free_or_blames before d with ⟨hparent, hd⟩ | ⟨err', hblames⟩
      · rw [checkDetached_cons_of_free hparent hd] at h
        obtain ⟨front, c, behind, rfl, hfront, hc⟩ := ih h
        refine ⟨d :: front, c, behind, rfl, ?_, hc.congr fun m hm => ?_⟩
        · rwa [checkDetached_cons_of_free hparent hd]
        · simp only [List.mem_append, List.mem_cons] at hm ⊢
          grind
      · rw [checkDetached_cons_of_blames hblames] at h
        cases h
        exact ⟨[], d, ds, rfl, rfl, hblames⟩
  · rintro ⟨front, c, behind, rfl, hfront, hc⟩
    induction front generalizing before with
    | nil => exact checkDetached_cons_of_blames hc
    | cons d front ih =>
      rcases t.free_or_blames before d with ⟨hparent, hd⟩ | ⟨err', hblames⟩
      · rw [checkDetached_cons_of_free hparent hd] at hfront
        rw [List.cons_append, checkDetached_cons_of_free hparent hd]
        refine ih hfront (hc.congr fun m hm => ?_)
        simp only [List.mem_append, List.mem_cons] at hm ⊢
        grind
      · rw [checkDetached_cons_of_blames hblames] at hfront
        cases hfront

/-! ## The outcome of an addition -/

section Outcome

variable {e : SharedEffect} {pattern : Text} {children : List NodeId}

theorem run_addEffect_eq_ok {n : NodeId} {u : MatchTree} :
    (addEffect e pattern children).run.run t = (.ok n, u) ↔
      (children.length = e.effect.parameters.length ∧ t.AreFree children) ∧
        n = t.size ∧ u = t.attach e pattern children := by
  rw [run_addEffect, ← checkDetached_nil_eq_ok]
  by_cases hcount : children.length = e.effect.parameters.length
  · rw [if_pos hcount]
    rcases t.checkDetached [] children with err | _
    · rw [Prod.mk.injEq]
      simp
    · rw [Prod.mk.injEq]
      simp [hcount, eq_comm]
  · rw [if_neg hcount, Prod.mk.injEq]
    simp [hcount]

/-- A refusal leaves the tree as it was. -/
theorem run_addEffect_eq_error {err : Error} {u : MatchTree} :
    (addEffect e pattern children).run.run t = (.error err, u) ↔
      t.Refuses e children err ∧ u = t := by
  rw [run_addEffect]
  by_cases hcount : children.length = e.effect.parameters.length
  · have hrefuses : t.Refuses e children err ↔ t.checkDetached [] children = .error err := by
      rw [checkDetached_eq_error]
      constructor
      · rintro (hne | ⟨-, hcut, hfront, hc⟩)
        · exact absurd hcount hne
        · exact ⟨_, _, _, hcut, checkDetached_nil_eq_ok.mpr hfront, by rwa [List.append_nil]⟩
      · rintro ⟨front, c, behind, hcut, hfront, hc⟩
        rw [List.append_nil] at hc
        exact .child hcount hcut (checkDetached_nil_eq_ok.mp hfront) hc
    rw [if_pos hcount, hrefuses]
    rcases t.checkDetached [] children with err' | _
    · rw [Prod.mk.injEq]
      simp [eq_comm]
    · rw [Prod.mk.injEq]
      simp
  · have hrefuses : t.Refuses e children err ↔
        err = .childCountMismatch e.effect.id e.effect.parameters.length children.length := by
      constructor
      · rintro (_ | ⟨heq, -⟩)
        · rfl
        · exact absurd heq hcount
      · rintro rfl
        exact .count hcount
    rw [if_neg hcount, hrefuses, Prod.mk.injEq, Except.error.injEq, eq_comm (a := u), eq_comm]

/-- The tree `u` is the tree `t` with the application of the effect and its ghost behind it. The
children have got their parent, and every other node is as it was. -/
structure IsGrown (t : MatchTree) (e : SharedEffect) (pattern : Text) (children : List NodeId)
    (u : MatchTree) : Prop where
  size : u.size = t.size + 2
  application : u.node? t.size =
    some { kind := .application { effect := e, pattern, children, ghost := t.size + 1 } }
  ghost : u.node? (t.size + 1) = some { parent := some t.size, kind := .argument {} }
  adopted : ∀ c ∈ children, ∃ node, t.node? c = some node ∧ node.parent = none ∧
    u.node? c = some { node with parent := some t.size }
  kept : ∀ m < t.size, m ∉ children → u.node? m = t.node? m

theorem AreFree.isGrown (h : t.AreFree children) :
    t.IsGrown e pattern children (t.attach e pattern children) where
  size := size_attach t e pattern children
  application := by rw [node?_attach, if_pos rfl]
  ghost := by rw [node?_attach, if_neg (Nat.succ_ne_self _), if_pos rfl]
  adopted := by
    intro c hc
    obtain ⟨node, hnode, hparent⟩ := parent_eq_ok.mp (h.1 c hc)
    have hlt := lt_size_of_node? hnode
    refine ⟨node, hnode, hparent, ?_⟩
    rw [node?_attach, if_neg (Nat.ne_of_lt hlt), if_neg (Nat.ne_of_lt (Nat.lt_succ_of_lt hlt)),
      hnode, Option.map_some, if_pos hc]
  kept := by
    intro m hm hchild
    rw [node?_attach, if_neg (Nat.ne_of_lt hm), if_neg (Nat.ne_of_lt (Nat.lt_succ_of_lt hm))]
    simp [hchild]

/-- Of the nodes that were there, only parents are new. -/
theorem IsGrown.exists_node? {u : MatchTree} (h : t.IsGrown e pattern children u) {m : NodeId}
    {node : MatchNode} (hnode : t.node? m = some node) :
    ∃ p, u.node? m = some { node with parent := p } := by
  by_cases hm : m ∈ children
  · obtain ⟨node', hnode', -, hadopted⟩ := h.adopted m hm
    cases hnode.symm.trans hnode'
    exact ⟨_, hadopted⟩
  · exact ⟨node.parent, (h.kept m (lt_size_of_node? hnode) hm).trans hnode⟩

end Outcome

/-! ## New arguments for all parameters -/

/-- The tree with further nodes at its end. -/
def pushAll (t : MatchTree) (nodes : List MatchNode) : MatchTree := nodes.foldl push t

theorem size_pushAll (t : MatchTree) (nodes : List MatchNode) :
    (t.pushAll nodes).size = t.size + nodes.length := by
  induction nodes generalizing t with
  | nil => rfl
  | cons node nodes ih =>
    rw [pushAll, List.foldl_cons, ← pushAll, ih, size_push, List.length_cons]
    omega

theorem node?_pushAll_of_lt (t : MatchTree) (nodes : List MatchNode) {n : NodeId}
    (h : n < t.size) : (t.pushAll nodes).node? n = t.node? n := by
  induction nodes generalizing t with
  | nil => rfl
  | cons node nodes ih =>
    have hlt : n < (t.push node).size := by
      rw [size_push]
      exact Nat.lt_succ_of_lt h
    rw [pushAll, List.foldl_cons, ← pushAll, ih _ hlt, node?_push, if_neg (Nat.ne_of_lt h)]

theorem node?_pushAll (t : MatchTree) (nodes : List MatchNode) (i : Nat) :
    (t.pushAll nodes).node? (t.size + i) = nodes[i]? := by
  induction nodes generalizing t i with
  | nil =>
    rw [List.getElem?_nil]
    exact node?_eq_none.mpr (Nat.le_add_right _ _)
  | cons node nodes ih =>
    rw [pushAll, List.foldl_cons, ← pushAll]
    rcases i with _ | i
    · have hlt : t.size < (t.push node).size := by simp
      rw [Nat.add_zero, node?_pushAll_of_lt _ _ hlt, node?_push, if_pos rfl]
      rfl
    · have hsize : t.size + (i + 1) = (t.push node).size + i := by
        rw [size_push]
        omega
      rw [hsize, ih, List.getElem?_cons_succ]

/-- A new argument without a text for a parameter. -/
def unboundLeaf (p : Parameter) : MatchNode := { kind := .argument { parameter := some p } }

theorem run_addArguments (t : MatchTree) (ps : List Parameter) :
    (ps.mapM fun p => addArgument { parameter := some p }).run.run t =
      (.ok (List.range' t.size ps.length), t.pushAll (ps.map unboundLeaf)) := by
  induction ps generalizing t with
  | nil => rfl
  | cons p ps ih =>
    rw [List.mapM_cons, run_bind_of_ok _ (run_addArgument t _), run_bind_of_ok _ (ih _), size_push]
    rfl

/-- The tree `u` is the tree `t` with an argument without a text for each parameter of the effect,
the application of the effect to them, and its ghost. -/
structure IsGrownWithParameters (t : MatchTree) (e : SharedEffect) (pattern : Text)
    (u : MatchTree) : Prop where
  size : u.size = t.size + e.effect.parameters.length + 2
  kept : ∀ m < t.size, u.node? m = t.node? m
  leaf : ∀ i p, e.effect.parameters[i]? = some p → u.node? (t.size + i) =
    some { parent := some (t.size + e.effect.parameters.length)
           kind := .argument { parameter := some p, text := none } }
  application : u.node? (t.size + e.effect.parameters.length) =
    some { kind := .application
             { effect := e, pattern
               children := List.range' t.size e.effect.parameters.length
               ghost := t.size + e.effect.parameters.length + 1 } }
  ghost : u.node? (t.size + e.effect.parameters.length + 1) =
    some { parent := some (t.size + e.effect.parameters.length), kind := .argument {} }

theorem areFree_pushAll (t : MatchTree) (ps : List Parameter) :
    (t.pushAll (ps.map unboundLeaf)).AreFree (List.range' t.size ps.length) := by
  refine ⟨fun c hc => ?_, List.nodup_range'⟩
  obtain ⟨i, hi, rfl⟩ := List.mem_range'.mp hc
  refine parent_eq_ok.mpr ⟨unboundLeaf ps[i], ?_, rfl⟩
  rw [Nat.one_mul, node?_pushAll]
  simp [hi]

theorem exists_run_addEffectWithParameters (t : MatchTree) (e : SharedEffect) (pattern : Text) :
    ∃ u, (addEffectWithParameters e pattern).run.run t =
      (.ok (t.size + e.effect.parameters.length), u) ∧ t.IsGrownWithParameters e pattern u := by
  let v := t.pushAll (e.effect.parameters.map unboundLeaf)
  let children := List.range' t.size e.effect.parameters.length
  have hsize : v.size = t.size + e.effect.parameters.length := by
    rw [size_pushAll, List.length_map]
  have hfree : v.AreFree children := areFree_pushAll t e.effect.parameters
  have hgrown : v.IsGrown e pattern children (v.attach e pattern children) := hfree.isGrown
  have hrun : (addEffect e pattern children).run.run v =
      (.ok v.size, v.attach e pattern children) :=
    run_addEffect_eq_ok.mpr ⟨⟨List.length_range', hfree⟩, rfl, rfl⟩
  refine ⟨v.attach e pattern children, ?_, ?_⟩
  · unfold addEffectWithParameters
    rw [run_bind_of_ok _ (run_addArguments t _)]
    exact hrun.trans (by rw [hsize])
  · obtain ⟨hsize', happlication, hghost, hadopted, hkept⟩ := hgrown
    rw [hsize] at hsize' happlication hghost hadopted hkept
    refine ⟨hsize', fun m hm => ?_, fun i p hp => ?_, happlication, hghost⟩
    · have hm' : m ∉ children := fun hc => Nat.not_lt.mpr (List.mem_range'_1.mp hc).1 hm
      rw [hkept m (Nat.lt_add_right _ hm) hm', node?_pushAll_of_lt _ _ hm]
    · have hi := (List.getElem?_eq_some_iff.mp hp).1
      have hc : t.size + i ∈ children := List.mem_range'_1.mpr ⟨by omega, by omega⟩
      obtain ⟨node, hnode, -, hu⟩ := hadopted _ hc
      rw [node?_pushAll, List.getElem?_map, hp] at hnode
      cases hnode
      exact hu

/-! ## The law -/

/-- In every tree that can be built, an application is added exactly if there is one child for each
parameter and the children are free. Then the tree grows by the application and its ghost. If not,
the answer is the reason, and in the tree nothing has been written. With new arguments for the
parameters there is no reason to refuse. -/
theorem applications_are_added_whole_or_not_at_all (steps : List Step) (e : SharedEffect)
    (pattern : Text) :
    let t := build steps
    (∀ children : List NodeId,
      ((∃ n u, (addEffect e pattern children).run.run t = (.ok n, u)) ↔
        children.length = e.effect.parameters.length ∧ t.AreFree children) ∧
      (∀ n u, (addEffect e pattern children).run.run t = (.ok n, u) →
        n = t.size ∧ t.IsGrown e pattern children u ∧
          t.perform (.addEffect e pattern children) = u) ∧
      (∀ err u, (addEffect e pattern children).run.run t = (.error err, u) ↔
        t.Refuses e children err ∧ u = t) ∧
      (∀ err, t.Refuses e children err → t.perform (.addEffect e pattern children) = t)) ∧
    ∃ u, (addEffectWithParameters e pattern).run.run t =
      (.ok (t.size + e.effect.parameters.length), u) ∧ t.IsGrownWithParameters e pattern u := by
  intro t
  refine ⟨fun children => ⟨?_, fun n u hrun => ?_, fun err u => run_addEffect_eq_error,
    fun err herr => ?_⟩, exists_run_addEffectWithParameters t e pattern⟩
  · constructor
    · rintro ⟨n, u, hrun⟩
      exact (run_addEffect_eq_ok.mp hrun).1
    · intro hfree
      exact ⟨_, _, run_addEffect_eq_ok.mpr ⟨hfree, rfl, rfl⟩⟩
  · obtain ⟨⟨-, hfree⟩, rfl, rfl⟩ := run_addEffect_eq_ok.mp hrun
    refine ⟨rfl, hfree.isGrown, ?_⟩
    rw [perform_of_discard rfl, hrun]
  · rw [perform_of_discard rfl, run_addEffect_eq_error.mpr ⟨herr, rfl⟩]

end SnippetEngine.MatchTree
