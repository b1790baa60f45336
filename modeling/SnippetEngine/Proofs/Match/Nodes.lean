-- What each operation does to the nodes of a match tree, and when it is refused. The proofs about
-- trees look at a tree through `node?` alone.
import SnippetEngine.Match.Shape
import SnippetEngine.Proofs.Outcome

namespace SnippetEngine.MatchTree

/-! ## Looking at nodes -/

/-- The node at `p` applies an effect, as `a` says. -/
def Applies (t : MatchTree) (p : NodeId) (a : Application) : Prop :=
  ∃ node, t.node? p = some node ∧ node.kind = .application a

theorem node?_eq_none {t : MatchTree} {n : NodeId} : t.node? n = none ↔ t.size ≤ n := by
  simp [node?, size]

theorem lt_size_of_node? {t : MatchTree} {n : NodeId} {node : MatchNode}
    (h : t.node? n = some node) : n < t.size := by
  rw [node?, Array.getElem?_eq_some_iff] at h
  exact h.1

theorem Applies.lt_size {t : MatchTree} {p : NodeId} {a : Application} (h : t.Applies p a) :
    p < t.size := by
  obtain ⟨node, hn, _⟩ := h
  exact lt_size_of_node? hn

theorem parent_eq_ok {t : MatchTree} {n : NodeId} {p : Option NodeId} :
    t.parent n = .ok p ↔ ∃ node, t.node? n = some node ∧ node.parent = p := by
  unfold parent MatchTree.node
  cases t.node? n <;> simp [Functor.map, Except.map]

theorem argument?_eq_some {t : MatchTree} {n : NodeId} {a : Argument} :
    t.argument? n = .ok (some a) ↔ ∃ node, t.node? n = some node ∧ node.kind = .argument a := by
  unfold argument? MatchTree.node
  rcases t.node? n with _ | ⟨p, m, k⟩
  · simp [bind, Except.bind]
  · cases k <;> simp [bind, Except.bind, pure, Except.pure]

theorem application?_eq_some {t : MatchTree} {n : NodeId} {a : Application} :
    t.application? n = .ok (some a) ↔ t.Applies n a := by
  unfold application? MatchTree.node Applies
  rcases t.node? n with _ | ⟨p, m, k⟩
  · simp [bind, Except.bind]
  · cases k <;> simp [bind, Except.bind, pure, Except.pure]

theorem exists_application? {t : MatchTree} {n : NodeId} (h : n < t.size) :
    ∃ application, t.application? n = .ok application := by
  unfold application? MatchTree.node
  rcases hn : t.node? n with _ | ⟨p, m, k⟩
  · exact absurd h (Nat.not_lt.mpr (node?_eq_none.mp hn))
  · cases k
    · exact ⟨none, rfl⟩
    · exact ⟨some _, rfl⟩

theorem matchType_of_node? {t : MatchTree} {n : NodeId} {node : MatchNode}
    (h : t.node? n = some node) : t.matchType n = node.matchType := by
  unfold matchType
  rw [h]
  rfl

/-! ## Writing nodes -/

@[simp] theorem size_push (t : MatchTree) (node : MatchNode) : (t.push node).size = t.size + 1 := by
  simp [push, size]

@[simp] theorem size_update (t : MatchTree) (n : NodeId) (f : MatchNode → MatchNode) :
    (t.update n f).size = t.size := by
  simp [update, size]

theorem node?_push (t : MatchTree) (node : MatchNode) (n : NodeId) :
    (t.push node).node? n = if n = t.size then some node else t.node? n := by
  rw [push, node?, node?, size]
  exact Array.getElem?_push

theorem node?_update (t : MatchTree) (m : NodeId) (f : MatchNode → MatchNode) (n : NodeId) :
    (t.update m f).node? n = if m = n then (t.node? n).map f else t.node? n := by
  simp [update, node?, Array.getElem?_modify]

/-- The tree with the given parent for each of the nodes. -/
def adopt (t : MatchTree) (p : NodeId) (children : List NodeId) : MatchTree :=
  children.foldl (fun u c => u.update c ({ · with parent := some p })) t

@[simp] theorem size_adopt (t : MatchTree) (p : NodeId) (children : List NodeId) :
    (t.adopt p children).size = t.size := by
  induction children generalizing t with
  | nil => rfl
  | cons c cs ih =>
    have := ih (t.update c ({ · with parent := some p }))
    rwa [size_update] at this

theorem node?_adopt (t : MatchTree) (p : NodeId) (children : List NodeId) (n : NodeId) :
    (t.adopt p children).node? n =
      (t.node? n).map fun node => if n ∈ children then { node with parent := some p } else node := by
  induction children generalizing t with
  | nil => simp [adopt]
  | cons c cs ih =>
    have := ih (t.update c ({ · with parent := some p }))
    rw [adopt, List.foldl_cons, ← adopt, this, node?_update]
    by_cases hc : c = n
    · subst hc
      cases t.node? c <;> simp
    · simp [hc, Ne.symm hc]

/-- The tree with the application of an effect to the children, which become its own, and with
its ghost behind it. -/
def attach (t : MatchTree) (effect : SharedEffect) (pattern : Text) (children : List NodeId) :
    MatchTree :=
  ((t.adopt t.size children).push
    { kind := .application { effect, pattern, children, ghost := t.size + 1 } }).push
    { parent := some t.size, kind := .argument {} }

theorem size_attach (t : MatchTree) (e : SharedEffect) (pattern : Text) (children : List NodeId) :
    (t.attach e pattern children).size = t.size + 2 := by
  simp [attach]

/-- The old nodes, the adopted ones with their new parent, then the new node and its ghost. -/
theorem node?_attach (t : MatchTree) (e : SharedEffect) (pattern : Text) (children : List NodeId)
    (n : NodeId) :
    (t.attach e pattern children).node? n =
      if n = t.size then
        some { kind := .application { effect := e, pattern, children, ghost := t.size + 1 } }
      else if n = t.size + 1 then some { parent := some t.size, kind := .argument {} }
      else (t.node? n).map fun node =>
        if n ∈ children then { node with parent := some t.size } else node := by
  simp only [attach, node?_push, size_push, size_adopt, node?_adopt]
  by_cases h : n = t.size
  · subst h
    simp
  · simp only [h, if_false]

/-! ## The steps of a construction -/

theorem run_addArgument (t : MatchTree) (a : Argument) :
    (addArgument a).run.run t = (.ok t.size, t.push { kind := .argument a }) := rfl

theorem run_setParent {t : MatchTree} {c : NodeId} (p : NodeId) (h : c < t.size) :
    (setParent p c).run.run t = (.ok (), t.update c ({ · with parent := some p })) := by
  unfold setParent
  rw [run_get_bind]
  rcases hc : t.node? c with _ | node
  · exact absurd h (Nat.not_lt.mpr (node?_eq_none.mp hc))
  · rw [MatchTree.node, hc]
    rfl

theorem run_forM_setParent {t : MatchTree} {children : List NodeId} (p : NodeId)
    (h : ∀ c ∈ children, c < t.size) :
    (children.forM (setParent p)).run.run t = (.ok (), t.adopt p children) := by
  induction children generalizing t with
  | nil => rfl
  | cons c cs ih =>
    obtain ⟨hc, hcs⟩ := List.forall_mem_cons.mp h
    change (setParent p c >>= fun _ => cs.forM (setParent p)).run.run t = _
    rw [run_bind_of_ok _ (run_setParent p hc)]
    exact ih fun d hd => (size_update t c _).symm ▸ hcs d hd

theorem checkDetached_cons (t : MatchTree) (before : List NodeId) (c : NodeId)
    (cs : List NodeId) : t.checkDetached before (c :: cs) =
      t.parent c >>= fun p =>
        if p.isSome || before.contains c then .error (.nodeAlreadyAttached c)
        else t.checkDetached (c :: before) cs := by
  rw [checkDetached]
  cases t.parent c with
  | error e => rfl
  | ok p =>
    simp only [bind, Except.bind]
    split <;> rfl

/-- The nodes that may become children: different nodes that exist and have no parent. -/
theorem checkDetached_eq_ok {t : MatchTree} {before children : List NodeId} :
    t.checkDetached before children = .ok () ↔
      (∀ c ∈ children, t.parent c = .ok none ∧ c ∉ before) ∧ children.Nodup := by
  induction children generalizing before with
  | nil => simp [checkDetached]
  | cons c cs ih =>
    rw [checkDetached_cons]
    rcases hp : t.parent c with e | _ | p
    · simp [bind, Except.bind, hp]
    · simp only [bind, Except.bind, Option.isSome_none, Bool.false_or]
      by_cases hc : c ∈ before
      · simp [hc]
      · simp only [List.contains_iff_mem, hc, if_false, ih, List.mem_cons, not_or,
          List.nodup_cons, forall_eq_or_imp, hp, not_false_eq_true, and_true, true_and]
        constructor
        · rintro ⟨h, hnd⟩
          exact ⟨fun d hd => ⟨(h d hd).1, (h d hd).2.2⟩, fun hcs => (h c hcs).2.1 rfl, hnd⟩
        · rintro ⟨h, hcs, hnd⟩
          exact ⟨fun d hd => ⟨(h d hd).1, fun he => hcs (he ▸ hd), (h d hd).2⟩, hnd⟩
    · simp [bind, Except.bind, hp]

theorem lt_size_of_checkDetached {t : MatchTree} {before children : List NodeId}
    (h : t.checkDetached before children = .ok ()) : ∀ c ∈ children, c < t.size := by
  intro c hc
  obtain ⟨node, hnode, -⟩ := parent_eq_ok.mp ((checkDetached_eq_ok.mp h).1 c hc).1
  exact lt_size_of_node? hnode

/-- The children are looked at before one of them is written, and those that pass can be written. -/
theorem run_addEffect (t : MatchTree) (e : SharedEffect) (pattern : Text) (children : List NodeId) :
    (addEffect e pattern children).run.run t =
      if children.length = e.effect.parameters.length then
        match t.checkDetached [] children with
        | .ok _ => (.ok t.size, t.attach e pattern children)
        | .error err => (.error err, t)
      else
        (.error (.childCountMismatch e.effect.id e.effect.parameters.length children.length), t) := by
  unfold addEffect
  by_cases h : children.length = e.effect.parameters.length
  · simp only [h, ne_eq, not_true_eq_false, if_false, if_true]
    rw [run_get_bind]
    rcases hc : t.checkDetached [] children with err | _
    · rw [run_bind_of_error _ (run_liftM _ t)]
    · rw [run_bind_of_ok _ (run_liftM _ t), run_get_bind,
        run_bind_of_ok _ (run_forM_setParent t.size (lt_size_of_checkDetached hc)),
        attach, ← size_adopt t t.size children]
      rfl
  · simp only [h, ne_eq, not_false_eq_true, if_true, if_false]
    rfl

theorem run_setArgument (t : MatchTree) (n : NodeId) (text : Option Text) :
    (setArgument n text).run.run t =
      match t.argument? n with
      | .error err => (.error err, t)
      | .ok none => (.ok false, t)
      | .ok (some a) =>
        (.ok true, t.update n ({ · with kind := .argument { a with text } })) := by
  unfold setArgument
  rw [run_get_bind]
  rcases h : t.argument? n with err | _ | a
  · rfl
  · rfl
  · rfl

theorem run_setMatchType (t : MatchTree) (n : NodeId) (m : MatchType) :
    (setMatchType n m).run.run t =
      match t.node n with
      | .error err => (.error err, t)
      | .ok _ => (.ok (), t.update n ({ · with matchType := m })) := by
  unfold setMatchType
  rw [run_get_bind]
  rcases h : t.node n with err | node
  · rfl
  · rfl

theorem run_setMatchType_of_node? {t : MatchTree} {n : NodeId} {node : MatchNode} {m : MatchType}
    (h : t.node? n = some node) :
    (setMatchType n m).run.run t = (.ok (), t.update n ({ · with matchType := m })) := by
  rw [run_setMatchType, MatchTree.node, h]

end SnippetEngine.MatchTree
