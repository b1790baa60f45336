-- The walk through a match. An evaluation begins, and then asks for the value of each application
-- of the match in post-order, with the values of its children. A call that fails is the last one and
-- its error is the answer. An application of the match hands on what the evaluation answers.
import SnippetEngine.Proofs.Match.Order
import SnippetEngine.Proofs.Session.Trace
import SnippetEngine.Rehearsal.Recorder

namespace SnippetEngine

open Session

/-! ## Walks -/

/-- The value of a node after some visits: that of an argument, or what a visit answered. -/
def Gave (t : MatchTree) (overview : Bool) (visits : List Visit) (n : NodeId) (value : Text) :
    Prop :=
  (∃ a, t.argument? n = .ok (some a) ∧ a.value overview = value) ∨
    ∃ v ∈ visits, v.node = n ∧ v.answer = .ok value

/-- The visits of a walk that is to go through the nodes of `order` and has the given outcome, with
other visits before it. -/
structure Walked {α : Type} (t : MatchTree) (overview : Bool) (earlier : List Visit)
    (order : List NodeId) (visits : List Visit) (outcome : Except Error α) : Prop where
  tree : ∀ v ∈ visits, v.tree = t
  inOrder : visits.map (·.node) <+: order
  /-- Each visit gets the values of the children, which earlier visits gave. -/
  values : ∀ pre v post, visits = pre ++ v :: post →
    ∃ a, t.Applies v.node a ∧ List.Forall₂ (Gave t overview (earlier ++ pre)) a.children v.values
  /-- No visit comes behind one that failed. -/
  goesOn : visits.Pairwise fun v _ => ∃ value, v.answer = .ok value
  finished : ∀ a, outcome = .ok a →
    visits.map (·.node) = order ∧ ∀ v ∈ visits, ∃ value, v.answer = .ok value
  failed : ∀ e, outcome = .error e → ∃ pre v, visits = pre ++ [v] ∧ v.answer = .error e

section Walks

variable {t : MatchTree} {overview : Bool} {α β : Type}

theorem Gave.mono {V W : List Visit} {n : NodeId} {value : Text} (h : Gave t overview V n value)
    (hsub : V <+: W) : Gave t overview W n value := by
  rcases h with hargument | ⟨v, hv, hrest⟩
  · exact .inl hargument
  · exact .inr ⟨v, hsub.subset hv, hrest⟩

namespace Walked

variable {earlier V W : List Visit} {order rest : List NodeId}

theorem nil (a : α) : Walked t overview earlier [] [] (.ok a : Except Error α) where
  tree := fun _ hv => nomatch hv
  inOrder := List.nil_prefix
  values := fun pre _ _ h => by simp at h
  goesOn := .nil
  finished := fun _ _ => ⟨rfl, fun _ hv => nomatch hv⟩
  failed := fun _ h => nomatch h

theorem visit {n : NodeId} {a : Application} {values : List Text} (happlies : t.Applies n a)
    (hvalues : List.Forall₂ (Gave t overview earlier) a.children values)
    (answer : Except Error Text) :
    Walked t overview earlier [n] [⟨t, n, values, answer⟩] answer where
  tree := fun v hv => by rw [List.mem_singleton.mp hv]
  inOrder := List.prefix_refl _
  values := fun pre v post h => by
    obtain ⟨rfl, hv⟩ | ⟨-, hv⟩ := List.singleton_eq_append_iff.mp h
    · cases hv
      exact ⟨a, happlies, by simpa using hvalues⟩
    · cases hv
  goesOn := List.pairwise_singleton _ _
  finished := fun value h => ⟨rfl, fun v hv => ⟨value, by rw [List.mem_singleton.mp hv, h]⟩⟩
  failed := fun e h => ⟨[], _, rfl, h⟩

/-- A walk that finishes, and then another one. -/
theorem append {a : α} {outcome : Except Error β}
    (h : Walked t overview earlier order V (.ok a : Except Error α))
    (h' : Walked t overview (earlier ++ V) rest W outcome) :
    Walked t overview earlier (order ++ rest) (V ++ W) outcome := by
  obtain ⟨hnodes, hall⟩ := h.finished a rfl
  refine ⟨fun v hv => ?_, ?_, fun pre v post hsplit => ?_, ?_, fun b hb => ?_, fun e he => ?_⟩
  · exact (List.mem_append.mp hv).elim (h.tree v) (h'.tree v)
  · rw [List.map_append, hnodes]
    exact (List.prefix_append_right_inj _).mpr h'.inOrder
  · rcases List.append_eq_append_iff.mp hsplit with ⟨pre', rfl, hW⟩ | ⟨rest', rfl, hW⟩
    · rw [← List.append_assoc]
      exact h'.values pre' v post hW
    · rcases rest' with _ | ⟨v', rest'⟩
      · have hvalues := h'.values [] v post hW.symm
        simpa using hvalues
      · cases hW
        exact h.values pre v rest' rfl
  · rw [List.pairwise_append]
    exact ⟨h.goesOn, h'.goesOn, fun v hv _ _ => hall v hv⟩
  · obtain ⟨hnodes', hall'⟩ := h'.finished b hb
    rw [List.map_append, hnodes, hnodes']
    exact ⟨rfl, fun v hv => (List.mem_append.mp hv).elim (hall v) (hall' v)⟩
  · obtain ⟨pre, v, rfl, hv⟩ := h'.failed e he
    exact ⟨V ++ pre, v, (List.append_assoc ..).symm, hv⟩

/-- A walk that fails goes no further. -/
theorem stop {e : Error} (h : Walked t overview earlier order V (.error e : Except Error α)) :
    Walked t overview earlier (order ++ rest) V (.error e : Except Error β) where
  tree := h.tree
  inOrder := h.inOrder.trans (List.prefix_append _ _)
  values := h.values
  goesOn := h.goesOn
  finished := fun _ hok => nomatch hok
  failed := fun e' he => h.failed e' (by cases he; rfl)

end Walked

/-! ## Sessions that walk -/

variable {σ : Type}

/-- From every state, the session adds the visits of a walk to the calls, and what it answers is
what all visits so far gave. -/
def Follows (t : MatchTree) (overview : Bool) (earlier : List Visit) (order : List NodeId)
    (x : Session (Traced σ) α) (gives : List Visit → α → Prop) : Prop :=
  ∀ u : Traced σ, ∃ visits, (final x u).calls = u.calls ++ visits.map .visited ∧
    Walked t overview earlier order visits (outcome x u) ∧
    ∀ a, outcome x u = .ok a → gives (earlier ++ visits) a

variable {earlier : List Visit} {order rest : List NodeId}

theorem follows_pure {a : α} {gives : List Visit → α → Prop} (h : gives earlier a) :
    Follows t overview earlier [] (pure a : Session (Traced σ) α) gives := by
  intro u
  refine ⟨[], (List.append_nil _).symm, .nil a, fun b hb => ?_⟩
  cases hb
  rw [List.append_nil]
  exact h

theorem follows_bind {x : Session (Traced σ) α} {f : α → Session (Traced σ) β}
    {gives : List Visit → α → Prop} {gives' : List Visit → β → Prop}
    (hx : Follows t overview earlier order x gives)
    (hf : ∀ a V, earlier <+: V → gives V a → Follows t overview V rest (f a) gives') :
    Follows t overview earlier (order ++ rest) (x >>= f) gives' := by
  intro u
  obtain ⟨V, hcalls, hwalked, hgives⟩ := hx u
  rcases hout : outcome x u with e | a
  · rw [outcome_bind_error f hout, final_bind_error f hout]
    rw [hout] at hwalked
    exact ⟨V, hcalls, hwalked.stop, fun _ hb => nomatch hb⟩
  · rw [outcome_bind_ok f hout, final_bind_ok f hout]
    rw [hout] at hwalked
    obtain ⟨W, hcalls', hwalked', hgives'⟩ :=
      hf a (earlier ++ V) (List.prefix_append _ _) (hgives a hout) (final x u)
    refine ⟨V ++ W, ?_, hwalked.append hwalked', fun b hb => ?_⟩
    · rw [hcalls', hcalls, List.map_append, List.append_assoc]
    · rw [← List.append_assoc]
      exact hgives' b hb

variable [Environment σ]

open Environment

theorem follows_evaluateEffect {n : NodeId} {a : Application} {values : List Text}
    (happlies : t.Applies n a)
    (hvalues : List.Forall₂ (Gave t overview earlier) a.children values) :
    Follows t overview earlier [n] (evaluateEffect t n values : Session (Traced σ) Text)
      fun visits value => Gave t overview visits n value := by
  intro u
  let answer := outcome (evaluateEffect t n values : Session σ Text) u.state
  refine ⟨[⟨t, n, values, answer⟩], rfl, .visit happlies hvalues answer, fun value hvalue => ?_⟩
  exact .inr ⟨_, List.mem_append_right _ (List.mem_singleton_self _), rfl, hvalue⟩

/-- From every environment, the evaluation of a match walks through its applications in post-order,
and answers the value of its node. -/
def Shape.IsWalked (σ : Type) [Environment σ] (t : MatchTree) (overview : Bool) (n : NodeId)
    (s : Shape) : Prop :=
  ∀ earlier, Follows t overview earlier s.postorder
    (evaluateShape t overview s : Session (Traced σ) Text)
    fun visits value => Gave t overview visits n value

theorem follows_evaluateShapes {cs : List NodeId} {ss : List Shape}
    (h : List.Forall₂ (fun c s => s.IsWalked σ t overview c) cs ss) (earlier : List Visit) :
    Follows t overview earlier (Shape.postorderOfAll ss)
      (evaluateShapes t overview ss : Session (Traced σ) (List Text))
      fun visits values => List.Forall₂ (Gave t overview visits) cs values := by
  induction h generalizing earlier with
  | nil =>
    unfold evaluateShapes
    exact follows_pure .nil
  | cons hs _ ih =>
    unfold evaluateShapes Shape.postorderOfAll
    apply follows_bind (hs earlier)
    intro value V _ hvalue
    rw [← List.append_nil (Shape.postorderOfAll _)]
    apply follows_bind (ih V)
    intro values W hVW hvalues
    exact follows_pure (.cons (hvalue.mono hVW) hvalues)

theorem exists_isWalked (ht : t.WellFormed) (overview : Bool) {n : NodeId} (hn : n < t.size) :
    ∃ s, t.shape? n = some s ∧ s.IsWalked σ t overview n := by
  refine ht.exists_shape (motive := fun n s => s.IsWalked σ t overview n) ?_ ?_ hn
  · intro n a hargument earlier
    unfold evaluateShape
    exact follows_pure (.inl ⟨a, hargument, rfl⟩)
  · intro n a ss happlies hchildren earlier
    unfold evaluateShape
    apply follows_bind (follows_evaluateShapes (hchildren.imp fun _ _ hcs => hcs.2) earlier)
    exact fun values V _ hvalues => follows_evaluateEffect happlies hvalues

end Walks

/-! ## Evaluations and applications -/

section Evaluations

open Environment

variable {σ : Type} [Environment σ] {t : MatchTree} {n : NodeId}

theorem run_evaluate {shape : Shape} (h : t.shape? n = some shape) (overview : Bool) (s : σ) :
    (evaluate t n overview : Session σ Text).run.run s =
      (evaluateShape t overview shape : Session σ Text).run.run (beginEvaluation s) := by
  have hshape : t.shape n = .ok shape := by
    unfold MatchTree.shape
    rw [h]
  unfold evaluate
  rw [hshape]
  rfl

/-- An application of a match hands the value and the effect to the environment. -/
theorem run_apply {application : Option Application} (h : t.application? n = .ok application)
    (s : σ) : (apply t n : Session σ Unit).run.run s =
      match outcome (evaluate t n false) s with
      | .ok result => (applyResult result (application.map (·.effect.effect))).run.run
          (final (evaluate t n false : Session σ Text) s)
      | .error e => (.error e, final (evaluate t n false : Session σ Text) s) := by
  unfold apply
  rcases hx : outcome (evaluate t n false) s with e | result
  · exact run_bind_error _ hx
  · rw [run_bind_ok _ hx, h]
    rfl

/-- What an evaluation is made of: it begins, and then the applications of the match are visited. -/
structure EvaluatesInOrder (t : MatchTree) (n : NodeId) (overview : Bool) (u : Traced σ) : Prop where
  plain_outcome : outcome (evaluate t n overview) u = outcome (evaluate t n overview) u.state
  plain_state : (final (evaluate t n overview) u).state = final (evaluate t n overview) u.state
  walk : ∃ visits,
    (final (evaluate t n overview) u).calls = u.calls ++ .begun :: visits.map .visited ∧
    Walked t overview [] (t.postorder n) visits (outcome (evaluate t n overview) u) ∧
    ∀ value, outcome (evaluate t n overview) u = .ok value → Gave t overview visits n value

theorem evaluatesInOrder (ht : t.WellFormed) (hn : n < t.size) (overview : Bool) (u : Traced σ) :
    EvaluatesInOrder t n overview u := by
  obtain ⟨hout, hstate⟩ := Traced.agree_evaluate t n overview u u.state rfl
  refine ⟨hout, hstate, ?_⟩
  obtain ⟨shape, hshape, hwalked⟩ := exists_isWalked (σ := σ) ht overview hn
  obtain ⟨visits, hcalls, hwalk, hgave⟩ := hwalked [] (beginEvaluation u)
  have hrun := run_evaluate hshape overview u
  have hout' : outcome (evaluate t n overview) u =
      outcome (evaluateShape t overview shape) (beginEvaluation u) := congrArg Prod.fst hrun
  have hfinal : final (evaluate t n overview) u =
      final (evaluateShape t overview shape) (beginEvaluation u) := congrArg Prod.snd hrun
  rw [hout', hfinal, MatchTree.postorder_of_shape? hshape]
  refine ⟨visits, ?_, hwalk, hgave⟩
  rw [hcalls]
  exact List.append_assoc u.calls [.begun] _

/-- What an application of a match is made of: the evaluation, and then, if it succeeds, one call with
its value and the effect of the node, whose answer is the answer. -/
structure HandsOnTheValue (t : MatchTree) (n : NodeId) (u : Traced σ) : Prop where
  plain_outcome : outcome (apply t n) u = outcome (apply t n) u.state
  plain_state : (final (apply t n) u).state = final (apply t n) u.state
  handed : ∀ result, outcome (evaluate t n false) u = .ok result →
    ∃ application, t.application? n = .ok application ∧ (final (apply t n) u).calls =
      (final (evaluate t n false) u).calls ++
        [.applied result (application.map (·.effect.effect)) (outcome (apply t n) u)]
  refused : ∀ e, outcome (evaluate t n false) u = .error e →
    outcome (apply t n) u = .error e ∧
      (final (apply t n) u).calls = (final (evaluate t n false) u).calls

theorem handsOnTheValue (hn : n < t.size) (u : Traced σ) : HandsOnTheValue t n u := by
  obtain ⟨hout, hstate⟩ := Traced.agree_apply t n u u.state rfl
  obtain ⟨application, happlication⟩ := MatchTree.exists_application? hn
  have hrun := run_apply happlication u
  refine ⟨hout, hstate, fun result hresult => ⟨application, happlication, ?_⟩, fun e he => ?_⟩
  · rw [hresult] at hrun
    unfold outcome final
    rw [hrun]
    rfl
  · rw [he] at hrun
    unfold outcome
    exact ⟨congrArg Prod.fst hrun, congrArg (fun r => r.2.calls) hrun⟩

end Evaluations

/-- In each environment and at each node of a tree that was built: an evaluation begins once, and
then visits the applications that can be reached along children, each once and in post-order, with the
values of its children, up to the first visit that fails. An application of the match makes one call
more, if the evaluation succeeds. Ghosts are no applications and nobody's children. -/
theorem evaluations_walk_in_postorder {σ : Type} [Environment σ] (steps : List MatchTree.Step)
    {n : NodeId} (hn : n < (MatchTree.build steps).size) (u : Traced σ) :
    let t := MatchTree.build steps
    (∀ overview, EvaluatesInOrder t n overview u) ∧ HandsOnTheValue t n u ∧
      (t.postorder n).Nodup ∧
      (∀ m, m ∈ t.postorder n ↔ (∃ a, t.Applies m a) ∧ t.IsBelow m n) ∧
      ∀ p a, t.Applies p a → t.postorder p = a.children.flatMap t.postorder ++ [p] ∧
        a.ghost ∉ t.postorder n ∧ ∀ q, ¬ t.IsChild a.ghost q := by
  intro t
  have ht : t.WellFormed := MatchTree.wellFormed_build steps
  refine ⟨fun overview => evaluatesInOrder ht hn overview u, handsOnTheValue hn u,
    ht.nodup_postorder n, fun m => ht.mem_postorder, fun p a happlies => ?_⟩
  exact ⟨ht.postorder_application happlies, ht.ghost_not_mem_postorder happlies n,
    ht.ghost_no_child p a happlies⟩

/-- The pair of an argument and of a match without arguments. -/
def pairSteps : List MatchTree.Step :=
  [.addArgument { text := some ['a'] }, .addEffect ⟨0, { id := ['i'] }⟩ [] [],
    .addEffect ⟨1, { id := ['p'], parameters := [{ name := ['x'] }, { name := ['y'] }] }⟩ [] [0, 1]]

/-- The match without arguments is visited first, then the pair with both values. -/
theorem pair_is_visited_last :
    let t := MatchTree.build pairSteps
    let u : Traced Recorder := { state := {} }
    let x : Session (Traced Recorder) Text := Environment.evaluate t 3 false
    3 < t.size ∧ outcome x u = .ok "p<a|i<>>".toList ∧
      ∃ visits : List Visit, (final x u).calls = .begun :: visits.map .visited ∧
        visits.map (·.node) = [1, 3] ∧ ∀ v ∈ visits, ∃ value, v.answer = .ok value := by
  intro t u x
  have hsize : 3 < t.size := by decide +kernel
  have horder : t.postorder 3 = [1, 3] := by decide +kernel
  have hout : outcome x u = .ok "p<a|i<>>".toList := by decide +kernel
  obtain ⟨hevaluates, -⟩ := evaluations_walk_in_postorder pairSteps hsize u
  obtain ⟨visits, hcalls, hwalked, -⟩ := (hevaluates false).walk
  obtain ⟨hnodes, hall⟩ := hwalked.finished _ hout
  exact ⟨hsize, hout, visits, hcalls, hnodes.trans horder, hall⟩

end SnippetEngine
