-- What the cache holds. Whatever a session is asked to do, an id keeps the snippet of the first effect
-- with that id that was asked for and whose code compiles, and nothing else is kept. Which effects
-- an evaluation asks for is read off the log of its walk.
import Mathlib.Data.List.Nodup
import SnippetEngine.Proofs.Session.Cache
import SnippetEngine.Proofs.Session.Invariants
import SnippetEngine.Proofs.Session.Trace

namespace SnippetEngine

open Session

/-! ## Requests -/

/-- The effect that the application at a node applies. -/
def MatchTree.effect? (t : MatchTree) (n : NodeId) : Option SharedEffect :=
  match t.application? n with
  | .ok (some a) => some a.effect
  | _ => none

/-- The effect whose snippet a call asks for: that of the application whose value it asks for. -/
def Call.request? : Call → Option SharedEffect
  | .visited v => v.tree.effect? v.node
  | _ => none

/-- The effects whose snippets were asked for, one after another. -/
def Traced.requests {σ : Type} (u : Traced σ) : List SharedEffect :=
  u.calls.flatMap (·.request?.toList)

namespace Synthesizer

variable {ε : Type}

/-- What a session may be asked to do. What concerns the evaluator alone, such as a reset, is some
change of it. -/
inductive Step (ε : Type)
  | compile (effect : SharedEffect)
  | evaluate (t : MatchTree) (n : NodeId) (asOverview : Bool)
  | evaluateEffect (t : MatchTree) (n : NodeId) (values : List Text)
  | apply (t : MatchTree) (n : NodeId)
  | change (f : ε → ε)

namespace Step

variable [Evaluator ε]

/-- The session after a step, also where it fails. -/
def after : Step ε → Synthesizer ε → Synthesizer ε
  | compile e, s => final (snippet e) s
  | evaluate t n asOverview, s => final (Environment.evaluate t n asOverview) s
  | evaluateEffect t n values, s => final (Environment.evaluateEffect t n values) s
  | apply t n, s => final (Environment.apply t n) s
  | change f, s => { s with evaluator := f s.evaluator }

/-- The effects whose snippets a step asks for. -/
def requests : Step ε → Synthesizer ε → List SharedEffect
  | compile e, _ => [e]
  | evaluate t n asOverview, s =>
    (final (Environment.evaluate t n asOverview) ({ state := s } : Traced _)).requests
  | evaluateEffect t n values, s =>
    (final (Environment.evaluateEffect t n values) ({ state := s } : Traced _)).requests
  | apply t n, s => (final (Environment.apply t n) ({ state := s } : Traced _)).requests
  | change _, _ => []

def afterAll (steps : List (Step ε)) (s : Synthesizer ε) : Synthesizer ε :=
  steps.foldl (fun s o => o.after s) s

/-- The effects whose snippets the steps ask for, one step after another. -/
def requestsOfAll : List (Step ε) → Synthesizer ε → List SharedEffect
  | [], _ => []
  | o :: os, s => o.requests s ++ requestsOfAll os (o.after s)

theorem afterAll_append (steps later : List (Step ε)) (s : Synthesizer ε) :
    afterAll (steps ++ later) s = afterAll later (afterAll steps s) := List.foldl_append

end Step

/-! ## The snippets of requests -/

/-- What the code of an effect compiles to, if the effect has that id. -/
def compiledAs (id : Text) (e : SharedEffect) : Option Snippet :=
  if e.effect.id = id then (Snippet.compile e).toOption else none

/-- The cache holds for each id what the first request for it that did not fail was compiled to. -/
structure Holds (requests : List SharedEffect) (s : Synthesizer ε) : Prop where
  cached : ∀ id, s.cached? id = requests.findSome? (compiledAs id)
  keys : (s.cache.map Prod.fst).Nodup

theorem compiledAs_eq_some {id : Text} {e : SharedEffect} {found : Snippet} :
    compiledAs id e = some found ↔ e.effect.id = id ∧ Snippet.compile e = .ok found := by
  unfold compiledAs
  rcases Snippet.compile e with err | new
  · simp [Except.toOption]
  · simp [Except.toOption]

theorem compiledAs_eq_none {id : Text} {e : SharedEffect} :
    compiledAs id e = none ↔ (e.effect.id = id → ∃ err, Snippet.compile e = .error err) := by
  unfold compiledAs
  rcases Snippet.compile e with err | new
  · simp [Except.toOption]
  · simp [Except.toOption]

theorem cached?_append (s : Synthesizer ε) (key id : Text) (found : Snippet) :
    cached? { s with cache := s.cache ++ [(key, found)] } id =
      (s.cached? id).or (if key = id then some found else none) := by
  unfold cached?
  rw [List.find?_append, Option.map_or]
  by_cases h : key = id
  · simp [h]
  · simp [h]

theorem not_mem_keys {s : Synthesizer ε} {id : Text} (h : s.cached? id = none) :
    id ∉ s.cache.map Prod.fst := by
  unfold cached? at h
  rw [Option.map_eq_none_iff, List.find?_eq_none] at h
  intro hmem
  obtain ⟨entry, hentry, rfl⟩ := List.mem_map.mp hmem
  exact h entry hentry (beq_self_eq_true entry.1)

namespace Holds

variable {es : List SharedEffect} {s : Synthesizer ε}

/-- A request for a snippet is one more request. -/
theorem snippet (h : Holds es s) (e : SharedEffect) :
    Holds (es ++ [e]) (final (Synthesizer.snippet e) s) := by
  -- a later effect with an id that is cached has no say, and it has none for other ids
  have hkept : ∀ found, s.cached? e.effect.id = some found → ∀ id,
      s.cached? id = (s.cached? id).or (compiledAs id e) := by
    intro found hfound id
    by_cases hid : e.effect.id = id
    · rw [← hid, hfound]
      rfl
    · rw [compiledAs, if_neg hid, Option.or_none]
  have hnext : ∀ id, (es ++ [e]).findSome? (compiledAs id) =
      (s.cached? id).or (compiledAs id e) := by
    intro id
    rw [List.findSome?_append, h.cached]
    congr 1
    exact List.findSome?_singleton
  unfold final
  rw [run_snippet]
  rcases hcached : s.cached? e.effect.id with _ | found
  · rcases hcompile : Snippet.compile e with err | new
    · refine ⟨fun id => ?_, h.keys⟩
      have hnone : compiledAs id e = none := compiledAs_eq_none.mpr fun _ => ⟨err, hcompile⟩
      rw [hnext, hnone, Option.or_none]
    · refine ⟨fun id => ?_, ?_⟩
      · rw [hnext, compiledAs, hcompile]
        exact cached?_append s e.effect.id id new
      · change ((s.cache ++ [(e.effect.id, new)]).map Prod.fst).Nodup
        rw [List.map_append, List.map_singleton, ← List.concat_eq_append]
        exact List.Nodup.concat (not_mem_keys hcached) h.keys
  · exact ⟨fun id => (hkept found hcached id).trans (hnext id).symm, h.keys⟩

/-- The evaluator has no say. -/
theorem change (h : Holds es s) (e : ε) : Holds es { s with evaluator := e } := ⟨h.cached, h.keys⟩

variable [Evaluator ε]

/-- The value of an application needs its snippet, and no other one. -/
theorem visited (h : Holds es s) (v : Visit) :
    Holds (es ++ (Call.visited v).request?.toList)
      (final (evaluateEffect v.tree v.node v.values) s) := by
  change Holds (es ++ (v.tree.effect? v.node).toList) _
  unfold evaluateEffect MatchTree.effect?
  rcases ha : v.tree.application? v.node with err | _ | a
  · rw [Option.toList_none, List.append_nil]
    exact h
  · rw [Option.toList_none, List.append_nil]
    exact h
  · rw [ok_lift_bind]
    have hsnippet := h.snippet a.effect
    rcases hout : outcome (Synthesizer.snippet a.effect) s with err | found
    · rw [final_bind_error _ hout]
      exact hsnippet
    · rw [final_bind_ok _ hout, final_bind_pure]
      exact hsnippet.change _

end Holds

/-! ## Steps -/

section Steps

/-- The cache holds the snippets of the effects in `es` and of those that the log shows. -/
def HoldsRequests (es : List SharedEffect) (u : Traced (Synthesizer ε)) : Prop :=
  Holds (es ++ u.requests) u.state

variable {es : List SharedEffect} {u : Traced (Synthesizer ε)}

/-- A call that asks for no snippet leaves the cache as it is. -/
theorem HoldsRequests.quiet (h : HoldsRequests es u) {call : Call} (hcall : call.request? = none)
    (e : ε) :
    HoldsRequests es { state := { u.state with evaluator := e }, calls := u.calls ++ [call] } := by
  unfold HoldsRequests Traced.requests at *
  rw [List.flatMap_append, List.flatMap_singleton, hcall, Option.toList_none, List.append_nil]
  exact h.change e

variable [Evaluator ε]

theorem ensures_visit (es : List SharedEffect) (t : MatchTree) (n : NodeId) (values : List Text) :
    Ensures (HoldsRequests es)
      (Environment.evaluateEffect t n values : Session (Traced (Synthesizer ε)) Text)
      fun _ => True := by
  intro u hu
  refine ⟨?_, fun _ _ => trivial⟩
  let v : Visit := ⟨t, n, values, outcome (evaluateEffect t n values) u.state⟩
  have hvisited : Holds (es ++ u.requests ++ (Call.visited v).request?.toList)
      (final (evaluateEffect t n values) u.state) := hu.visited v
  have hfinal : final (Environment.evaluateEffect t n values) u =
      { state := final (evaluateEffect t n values) u.state, calls := u.calls ++ [.visited v] } := rfl
  unfold HoldsRequests Traced.requests at *
  rw [hfinal, List.flatMap_append, List.flatMap_singleton, ← List.append_assoc]
  exact hvisited

theorem ensures_evaluate (es : List SharedEffect) (t : MatchTree) (n : NodeId) (asOverview : Bool) :
    Ensures (HoldsRequests es)
      (Environment.evaluate t n asOverview : Session (Traced (Synthesizer ε)) Text)
      fun _ => True := by
  intro u hu
  exact evaluate_ensures (fun n values _ => ensures_visit es t n values)
    (fun _ _ _ _ => trivial) (hu.quiet rfl _)

theorem ensures_apply (es : List SharedEffect) (t : MatchTree) (n : NodeId) :
    Ensures (HoldsRequests es)
      (Environment.apply t n : Session (Traced (Synthesizer ε)) Unit) fun _ => True := by
  unfold Environment.apply
  apply ensures_bind (ensures_evaluate es t n false)
  intro result _
  apply ensures_bind (ensures_lift (Q := fun _ => True) fun _ _ => trivial)
  intro application _ u hu
  exact ⟨hu.quiet rfl _, fun _ _ => trivial⟩

theorem Holds.step {s : Synthesizer ε} (h : Holds es s) (o : Step ε) :
    Holds (es ++ o.requests s) (o.after s) := by
  have hstart : HoldsRequests es { state := s } := by
    unfold HoldsRequests
    rw [show Traced.requests { state := s } = [] from rfl, List.append_nil]
    exact h
  cases o with
  | compile e => exact h.snippet e
  | evaluate t n asOverview =>
    have hend := (ensures_evaluate es t n asOverview _ hstart).1
    have hstate := (Traced.agree_evaluate t n asOverview { state := s } s rfl).2
    unfold HoldsRequests at hend
    rw [hstate] at hend
    exact hend
  | evaluateEffect t n values => exact (ensures_visit es t n values _ hstart).1
  | apply t n =>
    have hend := (ensures_apply es t n _ hstart).1
    have hstate := (Traced.agree_apply t n { state := s } s rfl).2
    unfold HoldsRequests at hend
    rw [hstate] at hend
    exact hend
  | change f =>
    rw [Step.requests, List.append_nil]
    exact h.change _

theorem Holds.run {s : Synthesizer ε} (h : Holds es s) (steps : List (Step ε)) :
    Holds (es ++ Step.requestsOfAll steps s) (Step.afterAll steps s) := by
  induction steps generalizing es s with
  | nil =>
    rw [Step.requestsOfAll, List.append_nil]
    exact h
  | cons o os ih =>
    rw [Step.requestsOfAll, ← List.append_assoc]
    exact ih (h.step o)

end Steps

/-! ## Whole sessions -/

/-- What the cache holds, in terms of the requests so far. -/
structure IsFilledBy (requests : List SharedEffect) (s : Synthesizer ε) : Prop where
  isCached_iff : ∀ id, s.isCached id ↔
    ∃ e ∈ requests, e.effect.id = id ∧ ∃ found, Snippet.compile e = .ok found
  /-- The entry is from the first request for the id that did not fail. -/
  entry_iff : ∀ id found, s.cached? id = some found ↔
    ∃ pre e post, requests = pre ++ e :: post ∧ e.effect.id = id ∧ Snippet.compile e = .ok found ∧
      ∀ f ∈ pre, f.effect.id = id → ∃ err, Snippet.compile f = .error err
  keys : (s.cache.map Prod.fst).Nodup

theorem Holds.isFilledBy {es : List SharedEffect} {s : Synthesizer ε} (h : Holds es s) :
    IsFilledBy es s where
  isCached_iff id := by
    unfold isCached
    rw [h.cached, List.findSome?_isSome_iff]
    simp only [Option.isSome_iff_exists, compiledAs_eq_some, exists_and_left]
  entry_iff id found := by
    rw [h.cached, List.findSome?_eq_some_iff]
    simp only [compiledAs_eq_some, compiledAs_eq_none, and_assoc]
  keys := h.keys

/-- What is cached stays cached. -/
theorem Holds.stays [Evaluator ε] {es : List SharedEffect} {s : Synthesizer ε} (h : Holds es s)
    {id : Text} {found : Snippet} (hfound : s.cached? id = some found) (later : List (Step ε)) :
    (Step.afterAll later s).cached? id = some found := by
  rw [(h.run later).cached, List.findSome?_append, ← h.cached, hfound]
  rfl

theorem holds_new (e : ε) : Holds [] ({ evaluator := e } : Synthesizer ε) :=
  ⟨fun _ => rfl, List.nodup_nil⟩

/-- A request that fails adds nothing. -/
theorem final_snippet_of_error {s : Synthesizer ε} {e : SharedEffect} {err : Error}
    (h : outcome (snippet e) s = .error err) : final (snippet e) s = s := by
  unfold outcome at h
  unfold final
  rw [run_snippet] at h ⊢
  rcases hcached : s.cached? e.effect.id with _ | found
  · rcases hcompile : Snippet.compile e with err' | new
    · rfl
    · rw [hcached, hcompile] at h
      cases h
  · rfl

end Synthesizer

end SnippetEngine
