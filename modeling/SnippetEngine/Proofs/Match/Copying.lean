-- Copies of matches. A copy is made behind the nodes that are there, part by part, and it is never
-- refused, since the copies of the children are new and have no parent. So nothing leads from the
-- one match to the other, and what is written in the one is not seen in the other.
import SnippetEngine.Proofs.Match.Additions
import SnippetEngine.Proofs.Match.Equality

namespace SnippetEngine.MatchTree

open Relation

variable {t u v : MatchTree} {n c : NodeId}

/-! ## A tree that has grown -/

/-- The tree `u` has the nodes of the tree `t` as they are, and new ones behind them. -/
structure Extends (t u : MatchTree) : Prop where
  size_le : t.size ≤ u.size
  kept : ∀ m < t.size, u.node? m = t.node? m

namespace Extends

theorem refl (t : MatchTree) : t.Extends t := ⟨Nat.le_refl _, fun _ _ => rfl⟩

theorem trans (h : t.Extends u) (h' : u.Extends v) : t.Extends v where
  size_le := Nat.le_trans h.size_le h'.size_le
  kept m hm := (h'.kept m (Nat.lt_of_lt_of_le hm h.size_le)).trans (h.kept m hm)

theorem node? (h : t.Extends u) {m : NodeId} {node : MatchNode} (hnode : t.node? m = some node) :
    u.node? m = some node :=
  (h.kept m (lt_size_of_node? hnode)).trans hnode

theorem parent (h : t.Extends u) {m : NodeId} {p : Option NodeId} (hparent : t.parent m = .ok p) :
    u.parent m = .ok p := by
  obtain ⟨node, hnode, hp⟩ := parent_eq_ok.mp hparent
  exact parent_eq_ok.mpr ⟨node, h.node? hnode, hp⟩

theorem shape? (h : t.Extends u) (ht : t.WellFormed) (hn : n < t.size) :
    u.shape? n = t.shape? n :=
  shape?_congr fun m hm => by rw [h.kept m (ht.lt_size_of_isBelow hn hm)]

end Extends

/-! ## What a copy is -/

/-- The match at the node `c` of `u` is a copy of the match at the node `n` of `t`. Part by part they
have the same classifications, effects, patterns, parameters and texts. The ghosts of the copy have
no text. -/
inductive Mirrors (t u : MatchTree) : NodeId → NodeId → Prop
  | argument {n c : NodeId} {p q : Option NodeId} {matchType : MatchType} {a : Argument} :
      t.node? n = some { parent := p, matchType, kind := .argument a } →
      u.node? c = some { parent := q, matchType, kind := .argument a } → Mirrors t u n c
  | application {n c : NodeId} {p q r : Option NodeId} {matchType : MatchType} {a : Application}
      {copies : List NodeId} {ghost : NodeId} :
      t.node? n = some { parent := p, matchType, kind := .application a } →
      u.node? c = some { parent := q, matchType
                         kind := .application { a with children := copies, ghost } } →
      u.node? ghost = some { parent := r, kind := .argument {} } →
      a.children.length = copies.length →
      (∀ d e, (d, e) ∈ a.children.zip copies → Mirrors t u d e) → Mirrors t u n c

namespace Mirrors

/-- A copy stays one while its nodes get parents. -/
theorem mono (h : t.Mirrors u n c) (hkept : ∀ m node, u.node? m = some node →
    ∃ p, v.node? m = some { node with parent := p }) : t.Mirrors v n c := by
  induction h with
  | argument hn hc =>
    obtain ⟨q, hc⟩ := hkept _ _ hc
    exact .argument hn hc
  | application hn hc hghost hlength _ ih =>
    obtain ⟨q, hc⟩ := hkept _ _ hc
    obtain ⟨r, hghost⟩ := hkept _ _ hghost
    exact .application hn hc hghost hlength ih

theorem extends_right (h : t.Mirrors u n c) (hext : u.Extends v) : t.Mirrors v n c :=
  h.mono fun _ node hnode => ⟨node.parent, hext.node? hnode⟩

/-- A copy is equal to what it is a copy of. -/
theorem agrees (h : t.Mirrors u n c) (ht : t.WellFormed) (hu : u.WellFormed) : ∀ s s',
    t.shape? n = some s → u.shape? c = some s' → s.agrees s' = true := by
  induction h with
  | argument hn hc =>
    intro s s' hs hs'
    rw [shape?_argument hn rfl] at hs
    rw [shape?_argument hc rfl] at hs'
    cases hs
    cases hs'
    exact Argument.sameValue_iff.mpr ⟨rfl, rfl⟩
  | application hn hc _ hlength _ ih =>
    intro s s' hs hs'
    obtain ⟨ss, hss, hshape⟩ := ht.exists_shape_application ⟨_, hn, rfl⟩
    obtain ⟨ss', hss', hshape'⟩ := hu.exists_shape_application ⟨_, hc, rfl⟩
    cases hs.symm.trans hshape
    cases hs'.symm.trans hshape'
    have hpairs := List.forall₂_iff_zip.mpr ⟨hlength, fun {d e} hde => ih d e hde⟩
    exact Shape.agrees_application.mpr ⟨rfl, forall₂_of_pairs hpairs hss hss'⟩

end Mirrors

/-! ## How a copy is made -/

/-- In the tree `u`, a copy of the match at the node `n` of `t` has been made at the node `c`, which
gives the tree `v`. -/
structure IsCopied (t u : MatchTree) (n c : NodeId) (v : MatchTree) : Prop where
  grown : u.Extends v
  fresh : u.size ≤ c
  free : v.parent c = .ok none
  mirrors : t.Mirrors v n c

/-- The same for matches one after another. -/
structure AreCopied (t u : MatchTree) (ns cs : List NodeId) (v : MatchTree) : Prop where
  grown : u.Extends v
  fresh : ∀ c ∈ cs, u.size ≤ c
  free : v.AreFree cs
  mirrors : List.Forall₂ (t.Mirrors v) ns cs

theorem AreCopied.nil (t u : MatchTree) : t.AreCopied u [] [] u where
  grown := .refl u
  fresh _ h := nomatch h
  free := ⟨fun _ h => (nomatch h), List.nodup_nil⟩
  mirrors := List.Forall₂.nil

theorem AreCopied.cons {w : MatchTree} {ns cs : List NodeId} (h : t.IsCopied u n c v)
    (hs : t.AreCopied v ns cs w) : t.AreCopied u (n :: ns) (c :: cs) w where
  grown := h.grown.trans hs.grown
  fresh := List.forall_mem_cons.mpr
    ⟨h.fresh, fun d hd => Nat.le_trans h.grown.size_le (hs.fresh d hd)⟩
  free := by
    have hc : c ∉ cs := fun hc => Nat.not_lt.mpr (hs.fresh c hc) (lt_size_of_parent h.free)
    exact ⟨List.forall_mem_cons.mpr ⟨hs.grown.parent h.free, hs.free.1⟩,
      List.nodup_cons.mpr ⟨hc, hs.free.2⟩⟩
  mirrors := .cons (h.mirrors.extends_right hs.grown) hs.mirrors

/-- A copy of an argument is a new node with its parameter, text and classification. -/
theorem isCopied_argument {p : Option NodeId} {matchType : MatchType} {a : Argument}
    (hn : t.node? n = some { parent := p, matchType, kind := .argument a }) :
    ∃ v, (Shape.copy t.matchType (.argument n a)).run.run u = (.ok u.size, v) ∧
      t.IsCopied u n u.size v := by
  let node : MatchNode := { kind := .argument a }
  have hnew : (u.push node).node? u.size = some node := by rw [node?_push, if_pos rfl]
  let v := (u.push node).update u.size ({ · with matchType })
  have hv : v.node? u.size = some { node with matchType } := by
    rw [node?_update, if_pos rfl, hnew]
    rfl
  refine ⟨v, ?_, ⟨?_, fun m hm => ?_⟩, Nat.le_refl _, ?_, .argument hn hv⟩
  · rw [Shape.copy, run_bind_of_ok _ (run_addArgument u a),
      run_bind_of_ok _ (run_setMatchType_of_node? hnew), matchType_of_node? hn]
    rfl
  · rw [size_update, size_push]
    exact Nat.le_succ _
  · rw [node?_update, if_neg (Nat.ne_of_gt hm), node?_push, if_neg (Nat.ne_of_lt hm)]
  · exact parent_eq_ok.mpr ⟨_, hv, rfl⟩

/-- The copies of the children are free, so an application of the effect to them is added. -/
theorem isCopied_application {p : Option NodeId} {matchType : MatchType} {a : Application}
    {copies : List NodeId} (hn : t.node? n = some { parent := p, matchType, kind := .application a })
    (harity : a.children.length = a.effect.effect.parameters.length)
    (hcopies : t.AreCopied u a.children copies v) :
    ∃ w, (do
        let c ← addEffect a.effect a.pattern copies
        setMatchType c (t.matchType n)
        return c : Build NodeId).run.run v = (.ok v.size, w) ∧ t.IsCopied u n v.size w := by
  let x := v.attach a.effect a.pattern copies
  have hx : v.IsGrown a.effect a.pattern copies x := hcopies.free.isGrown
  let w := x.update v.size ({ · with matchType })
  have hw : ∀ m, m ≠ v.size → w.node? m = x.node? m := fun m hm => by
    rw [node?_update, if_neg hm.symm]
  have hlength := hcopies.mirrors.length_eq
  have happlication : w.node? v.size = some
      { matchType, kind := .application { a with children := copies, ghost := v.size + 1 } } := by
    rw [node?_update, if_pos rfl, hx.application]
    rfl
  refine ⟨w, ?_, ⟨?_, fun m hm => ?_⟩, hcopies.grown.size_le, ?_, ?_⟩
  · have hadd : (addEffect a.effect a.pattern copies).run.run v = (.ok v.size, x) :=
      run_addEffect_eq_ok.mpr ⟨⟨hlength.symm.trans harity, hcopies.free⟩, rfl, rfl⟩
    rw [run_bind_of_ok _ hadd, run_bind_of_ok _ (run_setMatchType_of_node? hx.application),
      matchType_of_node? hn]
    rfl
  · have hsize : w.size = v.size + 2 := by rw [size_update, hx.size]
    exact Nat.le_trans hcopies.grown.size_le (by omega)
  · -- The old nodes are none of the copies, so they are not adopted.
    have hlt : m < v.size := Nat.lt_of_lt_of_le hm hcopies.grown.size_le
    have hold : m ∉ copies := fun hc => Nat.not_lt.mpr (hcopies.fresh m hc) hm
    rw [hw m (Nat.ne_of_lt hlt), hx.kept m hlt hold, hcopies.grown.kept m hm]
  · exact parent_eq_ok.mpr ⟨_, happlication, rfl⟩
  · have hkept : ∀ m node, v.node? m = some node →
        ∃ p, w.node? m = some { node with parent := p } := by
      intro m node hnode
      rw [hw m (Nat.ne_of_lt (lt_size_of_node? hnode))]
      exact hx.exists_node? hnode
    have hghost : w.node? (v.size + 1) = some { parent := some v.size, kind := .argument {} } := by
      rw [hw _ (Nat.succ_ne_self _), hx.ghost]
    refine .application hn happlication hghost hlength fun d e hde => ?_
    exact ((List.forall₂_iff_zip.mp hcopies.mirrors).2 hde).mono hkept

theorem exists_run_copyAll {matchTypes : NodeId → MatchType} {ns : List NodeId} {ss : List Shape}
    (h : List.Forall₂ (fun n s => ∀ u, ∃ c v, (s.copy matchTypes).run.run u = (.ok c, v) ∧
      t.IsCopied u n c v) ns ss) (u : MatchTree) :
    ∃ cs v, (Shape.copyAll matchTypes ss).run.run u = (.ok cs, v) ∧ t.AreCopied u ns cs v := by
  induction h generalizing u with
  | nil => exact ⟨[], u, rfl, .nil t u⟩
  | cons hs _ ih =>
    obtain ⟨c, v, hrun, hcopied⟩ := hs u
    obtain ⟨cs, w, hruns, hall⟩ := ih v
    refine ⟨c :: cs, w, ?_, .cons hcopied hall⟩
    rw [Shape.copyAll, run_bind_of_ok _ hrun, run_bind_of_ok _ hruns]
    rfl

/-- In every tree, a copy of a match can be made. -/
theorem WellFormed.exists_run_copy (h : t.WellFormed) (hn : n < t.size) :
    ∃ s, t.shape? n = some s ∧ ∀ u, ∃ c v, (s.copy t.matchType).run.run u = (.ok c, v) ∧
      t.IsCopied u n c v := by
  apply h.exists_shape (motive := fun n s => ∀ u, ∃ c v,
    (s.copy t.matchType).run.run u = (.ok c, v) ∧ t.IsCopied u n c v) ?_ ?_ hn
  · intro n a ha u
    obtain ⟨⟨p, matchType, kind⟩, hnode, rfl⟩ := argument?_eq_some.mp ha
    exact ⟨u.size, isCopied_argument hnode⟩
  · intro n a ss happlies hss u
    obtain ⟨cs, v, hruns, hcopies⟩ := exists_run_copyAll (hss.imp fun _ _ hs => hs.2) u
    obtain ⟨⟨p, matchType, kind⟩, hnode, rfl⟩ := id happlies
    obtain ⟨w, hrun, hcopied⟩ := isCopied_application hnode (h.arity n a happlies) hcopies
    refine ⟨v.size, w, ?_, hcopied⟩
    rw [Shape.copy, run_bind_of_ok _ hruns]
    exact hrun

theorem run_copyNode {s : Shape} (h : t.shape? n = some s) :
    (copyNode n).run.run t = (s.copy t.matchType).run.run t := by
  unfold copyNode
  rw [run_get_bind, shape_eq_ok.mpr h]
  exact run_bind_of_ok _ (run_liftM _ t)

/-! ## A copy made from the growing tree -/

/-- Of the classifications a copy takes those of the nodes below its node. -/
theorem WellFormed.copy_congr (h : t.WellFormed) (hn : n < t.size) : ∃ s, t.shape? n = some s ∧
    ∀ f g, (∀ m, t.IsBelow m n → f m = g m) → s.copy f = s.copy g := by
  apply h.exists_shape (motive := fun n s => ∀ f g, (∀ m, t.IsBelow m n → f m = g m) →
    s.copy f = s.copy g) ?_ ?_ hn
  · intro n a _ f g hsame
    rw [Shape.copy, Shape.copy, hsame n .refl]
  · intro n a ss happlies hss f g hsame
    have hall : Shape.copyAll f ss = Shape.copyAll g ss := by
      have hbelow : ∀ c ∈ a.children, ∀ m, t.IsBelow m c → f m = g m := by
        intro c hc m hm
        exact hsame m (hm.tail ⟨a, happlies, hc⟩)
      clear happlies hsame
      generalize a.children = cs at hss hbelow
      induction hss with
      | nil => rfl
      | cons hs _ ih =>
        obtain ⟨hfirst, hrest⟩ := List.forall_mem_cons.mp hbelow
        rw [Shape.copyAll, Shape.copyAll, hs.2 f g hfirst, ih hrest]
    rw [Shape.copy, Shape.copy, hall, hsame n .refl]

/-- In a tree that has grown, a copy of an old node is made as it is made in the old tree. -/
theorem Extends.run_copyNode (h : t.Extends u) (ht : t.WellFormed) (hn : n < t.size) {s : Shape}
    (hs : t.shape? n = some s) : (copyNode n).run.run u = (s.copy t.matchType).run.run u := by
  obtain ⟨s', hs', hcongr⟩ := ht.copy_congr hn
  cases hs.symm.trans hs'
  rw [MatchTree.run_copyNode ((h.shape? ht hn).trans hs), hcongr u.matchType t.matchType ?_]
  intro m hm
  unfold matchType
  rw [h.kept m (ht.lt_size_of_isBelow hn hm)]

theorem WellFormed.run_mapM_copyNode (h : t.WellFormed) {ns : List NodeId} {ss : List Shape}
    (hss : List.Forall₂ (fun n s => t.shape? n = some s) ns ss) (hns : ∀ n ∈ ns, n < t.size)
    (hext : t.Extends u) :
    (ns.mapM copyNode).run.run u = (Shape.copyAll t.matchType ss).run.run u := by
  induction hss generalizing u with
  | nil => rfl
  | @cons n s ns ss hs _ ih =>
    obtain ⟨hn, hns⟩ := List.forall_mem_cons.mp hns
    obtain ⟨s', hs', hcopy⟩ := h.exists_run_copy hn
    cases hs.symm.trans hs'
    obtain ⟨c, v, hrun, hcopied⟩ := hcopy u
    have hfirst := (hext.run_copyNode h hn hs).trans hrun
    rw [List.mapM_cons, Shape.copyAll, run_bind_of_ok _ hfirst, run_bind_of_ok _ hrun]
    exact run_bind_congr _ (ih hns (hext.trans hcopied.grown))

/-- A copy of an application reads the tree that its parts have grown. -/
theorem WellFormed.run_copyNode_application (h : t.WellFormed) {a : Application}
    (happlies : t.Applies n a) : (copyNode n).run.run t =
      (do
        let copies ← a.children.mapM copyNode
        let c ← addEffect a.effect a.pattern copies
        setMatchType c (t.matchType n)
        return c : Build NodeId).run.run t := by
  obtain ⟨ss, hss, hshape⟩ := h.exists_shape_application happlies
  have hlt : ∀ c ∈ a.children, c < t.size := fun c hc =>
    Nat.lt_trans (h.earlier n a happlies c hc) happlies.lt_size
  rw [run_copyNode hshape, Shape.copy]
  exact run_bind_congr _ (h.run_mapM_copyNode hss hlt (.refl t)).symm

/-! ## The nodes of a match with its ghosts -/

/-- The node `m` is the node `n` or can be reached from it along children and ghosts. -/
def IsWithin (t : MatchTree) (m n : NodeId) : Prop := ReflTransGen (fun k p => t.Owns p k) m n

theorem IsBelow.isWithin {m : NodeId} (h : t.IsBelow m n) : t.IsWithin m n := by
  refine ReflTransGen.mono ?_ m n h
  rintro k p ⟨a, happlies, hk⟩
  exact ⟨a, happlies, .inl hk⟩

namespace Extends

theorem owns_iff (h : t.Extends u) {p m : NodeId} (hp : p < t.size) :
    u.Owns p m ↔ t.Owns p m := by
  unfold Owns Applies
  rw [h.kept p hp]

/-- No link leads from an old node to a new one. -/
theorem lt_size_of_isWithin (h : t.Extends u) (ht : t.WellFormed) (hn : n < t.size) {m : NodeId}
    (hm : u.IsWithin m n) : m < t.size := by
  induction hm using ReflTransGen.head_induction_on with
  | refl => exact hn
  | head howns _ ih =>
    have hparent := (ht.parent_iff _ _).mpr ((h.owns_iff ih).mp howns)
    exact lt_size_of_parent hparent

/-- No link leads from a new node to an old one, whose owner would be new. -/
theorem size_le_of_isWithin (h : t.Extends u) (ht : t.WellFormed) (hu : u.WellFormed)
    (hn : t.size ≤ n) {m : NodeId} (hm : u.IsWithin m n) : t.size ≤ m := by
  induction hm using ReflTransGen.head_induction_on with
  | refl => exact hn
  | @head m p howns _ ih =>
    by_contra hlt
    obtain ⟨node, hnode, hp⟩ := parent_eq_ok.mp ((hu.parent_iff m p).mpr howns)
    rw [h.kept m (Nat.lt_of_not_le hlt)] at hnode
    obtain ⟨a, happlies, -⟩ := (ht.parent_iff m p).mp (parent_eq_ok.mpr ⟨node, hnode, hp⟩)
    exact Nat.not_lt.mpr ih happlies.lt_size

end Extends

/-! ## Edits -/

/-- The step writes the text or the classification of the node `m`. -/
inductive Step.Edits (m : NodeId) : Step → Prop
  | text (text : Option Text) : Edits m (.setArgument m text)
  | matchType (matchType : MatchType) : Edits m (.setMatchType m matchType)

/-- An edit of a node leaves all other nodes as they are. -/
theorem node?_perform_of_edits {s : Step} {m k : NodeId} (h : s.Edits m) (hk : k ≠ m) :
    (t.perform s).node? k = t.node? k := by
  cases h with
  | text text =>
    rw [perform_of_discard rfl]
    exact node?_setArgument text fun _ => hk
  | matchType matchType =>
    unfold perform
    rw [Step.action, run_setMatchType]
    rcases t.node m with err | node
    · rfl
    · exact (node?_update t m _ k).trans (if_neg hk.symm)

/-- Edits link no nodes. -/
theorem sameLinks_perform_of_edits {s : Step} {m : NodeId} (h : s.Edits m) :
    SameLinks t (t.perform s) := by
  cases h with
  | text text =>
    rw [perform_of_discard rfl]
    exact sameLinks_setArgument t m text
  | matchType matchType => exact sameLinks_setMatchType t m matchType

theorem sameLinks_foldl_perform {edits : List Step} (h : ∀ s ∈ edits, ∃ m, s.Edits m) :
    SameLinks t (edits.foldl perform t) := by
  induction edits generalizing t with
  | nil => exact sameLinks_refl t
  | cons s edits ih =>
    obtain ⟨⟨m, hedits⟩, hrest⟩ := List.forall_mem_cons.mp h
    exact (sameLinks_perform_of_edits hedits).trans (ih hrest)

/-- Edits of nodes with `P` leave the nodes without it as they are. -/
theorem node?_foldl_perform {P : NodeId → Prop} {edits : List Step}
    (h : ∀ s ∈ edits, ∃ m, P m ∧ s.Edits m) {k : NodeId} (hk : ¬ P k) :
    (edits.foldl perform t).node? k = t.node? k := by
  induction edits generalizing t with
  | nil => rfl
  | cons s edits ih =>
    obtain ⟨⟨m, hm, hedits⟩, hrest⟩ := List.forall_mem_cons.mp h
    have hne : k ≠ m := by
      rintro rfl
      exact hk hm
    rw [List.foldl_cons, ih hrest, node?_perform_of_edits hedits hne]

/-- Edits within one of two matches without a common node are not seen in the other. -/
theorem unseen_of_edits {x y : NodeId} (hdisjoint : ∀ m, u.IsWithin m x → ¬ u.IsWithin m y)
    {edits : List Step} (h : ∀ s ∈ edits, ∃ m, u.IsWithin m x ∧ s.Edits m) :
    let v := edits.foldl perform u
    v.isComplete y = u.isComplete y ∧ v.isEmpty y = u.isEmpty y ∧ v.leaves y = u.leaves y ∧
      ∀ m, u.IsWithin m y → v.node? m = u.node? m := by
  intro v
  have hkept : ∀ m, u.IsWithin m y → v.node? m = u.node? m := fun m hy =>
    node?_foldl_perform h fun hx => hdisjoint m hx hy
  obtain ⟨hcomplete, hempty, hleaves⟩ := answers_congr fun m hm => hkept m hm.isWithin
  exact ⟨hcomplete, hempty, hleaves, hkept⟩

/-! ## The law -/

/-- In every tree that can be built, a copy of an existing match can be made, part by part from the
tree that grows. The old nodes stay as they are. The copy has new nodes only, its ghosts with them,
and no parent. It is equal to the original, also in what equality does not look at, and its ghosts
have no text. Whatever texts and classifications are then written in one of the two, the other one
stays as it is. -/
theorem copies_are_equal_fresh_and_independent (steps : List Step) {n : NodeId}
    (hn : n < (build steps).size) :
    let t := build steps
    ∃ c u, (copyNode n).run.run t = (.ok c, u) ∧ t.perform (.copyNode n) = u ∧
      (∀ a, t.Applies n a → (copyNode n).run.run t =
        (do
          let copies ← a.children.mapM copyNode
          let c ← addEffect a.effect a.pattern copies
          setMatchType c (t.matchType n)
          return c : Build NodeId).run.run t) ∧
      (∀ m < t.size, u.node? m = t.node? m) ∧ u.parent c = .ok none ∧
      (∀ m, u.IsWithin m c → t.size ≤ m) ∧ (∀ m, u.IsWithin m n → m < t.size) ∧
      u.equals n u c = .ok true ∧ u.equals c u n = .ok true ∧ t.Mirrors u n c ∧
      ∀ x y, x = n ∧ y = c ∨ x = c ∧ y = n → ∀ edits : List Step,
        (∀ s ∈ edits, ∃ m, u.IsWithin m x ∧ s.Edits m) →
        let v := edits.foldl perform u
        v.isComplete y = u.isComplete y ∧ v.isEmpty y = u.isEmpty y ∧ v.leaves y = u.leaves y ∧
          ∀ m, u.IsWithin m y → v.node? m = u.node? m := by
  intro t
  have ht : t.WellFormed := wellFormed_build steps
  obtain ⟨s, hs, hcopy⟩ := ht.exists_run_copy hn
  obtain ⟨c, u, hrun, hext, hfresh, hfree, hmirrors⟩ := hcopy t
  rw [← run_copyNode hs] at hrun
  have hu : u.WellFormed := (keeps_copyNode n).wellFormed ht hrun
  have hnew : ∀ m, u.IsWithin m c → t.size ≤ m := fun m hm =>
    hext.size_le_of_isWithin ht hu hfresh hm
  have hold : ∀ m, u.IsWithin m n → m < t.size := fun m hm => hext.lt_size_of_isWithin ht hn hm
  obtain ⟨s', hs', -⟩ := hu.exists_arguments (lt_size_of_parent hfree)
  have hagrees := hmirrors.agrees ht hu s s' hs hs'
  have hsu : u.shape? n = some s := (hext.shape? ht hn).trans hs
  refine ⟨c, u, hrun, ?_, fun a happlies => ht.run_copyNode_application happlies, hext.kept, hfree,
    hnew, hold, ?_, ?_, hmirrors, ?_⟩
  · rw [perform_of_discard rfl, hrun]
  · rw [equals_of_shape? hsu hs', hagrees]
  · rw [equals_of_shape? hs' hsu, Shape.agrees_symm hagrees]
  · rintro x y (⟨rfl, rfl⟩ | ⟨rfl, rfl⟩) edits hedits
    · exact unseen_of_edits (fun m hx hy => Nat.not_lt.mpr (hnew m hy) (hold m hx)) hedits
    · exact unseen_of_edits (fun m hx hy => Nat.not_lt.mpr (hnew m hx) (hold m hy)) hedits

def unaryEffect : SharedEffect := ⟨0, { id := ['e'], parameters := [{ name := ['x'] }] }⟩

/-- A match with a fixed value, a classification, and a text at its ghost. -/
def boundGhostSteps : List Step :=
  [.addArgument { parameter := some { name := ['x'], fixedValue := some ['f'] }, text := some ['a'] },
    .addEffect unaryEffect ['p'] [0], .setMatchType 1 .partly, .setArgument 2 (some ['g'])]

/-- The texts and the classification of the original, and the text of its ghost. -/
def clearingSteps : List Step :=
  [.setArgument 0 none, .setMatchType 1 .normal, .setArgument 2 none]

/-- The copy stays complete when the original is cleared, and its ghost has no text at any time. -/
theorem copy_of_a_cleared_match_stays_complete :
    let t := build boundGhostSteps
    1 < t.size ∧ ∃ u, (copyNode 1).run.run t = (.ok 4, u) ∧ u.equals 1 u 4 = .ok true ∧
      u.matchType 4 = .partly ∧ u.argument? 5 = .ok (some {}) ∧
      let v := clearingSteps.foldl perform u
      v.isComplete 1 = .ok false ∧ v.isComplete 4 = .ok true ∧ v.leaves 4 = .ok [3] ∧
        v.node? 4 = u.node? 4 := by
  intro t
  have hsize : 1 < t.size := by decide +kernel
  obtain ⟨c, u, hrun, hu, -, -, -, -, -, hequal, -, -, hunseen⟩ :=
    copies_are_equal_fresh_and_independent boundGhostSteps hsize
  obtain rfl : t.perform (.copyNode 1) = u := hu
  obtain rfl : c = 4 := by
    have hnode : ((copyNode 1).run.run t).1 = .ok 4 := by decide +kernel
    rw [hrun] at hnode
    exact Except.ok.inj hnode
  have happlies : (t.perform (.copyNode 1)).Applies 1 ⟨unaryEffect, ['p'], [0], 2⟩ :=
    application?_eq_some.mp (by decide +kernel)
  have hedits : ∀ s ∈ clearingSteps,
      ∃ m, (t.perform (.copyNode 1)).IsWithin m 1 ∧ s.Edits m := by
    intro s hs
    simp only [clearingSteps, List.mem_cons, List.not_mem_nil, or_false] at hs
    rcases hs with rfl | rfl | rfl
    · exact ⟨0, .single ⟨_, happlies, .inl List.mem_cons_self⟩, .text none⟩
    · exact ⟨1, .refl, .matchType .normal⟩
    · exact ⟨2, .single ⟨_, happlies, .inr rfl⟩, .text none⟩
  obtain ⟨hcomplete, -, hleaves, hkept⟩ :=
    hunseen 1 4 (.inl ⟨rfl, rfl⟩) clearingSteps hedits
  exact ⟨hsize, _, hrun, hequal, by decide +kernel, by decide +kernel, by decide +kernel,
    hcomplete.trans (by decide +kernel), hleaves.trans (by decide +kernel), hkept 4 .refl⟩

end SnippetEngine.MatchTree
