-- Parameters that share a name. A look-up by name finds the first parameter of that name and its
-- child; the variable of that name starts with the value of the last one. So the two speak of the
-- same child where a name stands once, and else only by chance.
import Mathlib.Data.List.Induction
import Mathlib.Data.List.Nodup
import SnippetEngine.Proofs.Document.Evaluation
import SnippetEngine.Proofs.Session.Walk

namespace SnippetEngine

open Session

/-! ## Names in a list of parameters -/

def Effect.parameterNames (e : Effect) : List Text := e.parameters.map (·.name)

/-- The parameter number `i`, counted from 0, is the first of that name. -/
def Effect.IsFirstNamed (e : Effect) (x : Text) (i : Nat) : Prop :=
  ∃ before behind, e.parameterNames = before ++ x :: behind ∧ x ∉ before ∧ before.length = i

/-- The parameter number `j`, counted from 0, is the last of that name. -/
def Effect.IsLastNamed (e : Effect) (x : Text) (j : Nat) : Prop :=
  ∃ before behind, e.parameterNames = before ++ x :: behind ∧ x ∉ behind ∧ before.length = j

namespace Effect

variable {e : Effect} {x : Text} {i j : Nat}

theorem exists_isFirstNamed (h : x ∈ e.parameterNames) : ∃ i, e.IsFirstNamed x i := by
  obtain ⟨before, behind, hnames, hnot⟩ := List.eq_append_cons_of_mem h
  exact ⟨_, before, behind, hnames, hnot, rfl⟩

theorem exists_isLastNamed (h : x ∈ e.parameterNames) : ∃ j, e.IsLastNamed x j := by
  obtain ⟨before, behind, hnames, hnot⟩ := List.eq_append_cons_of_mem (List.mem_reverse.mpr h)
  refine ⟨_, behind.reverse, before.reverse, ?_, by simpa using hnot, rfl⟩
  simpa using congrArg List.reverse hnames

theorem IsFirstNamed.mem (h : e.IsFirstNamed x i) : x ∈ e.parameterNames := by
  obtain ⟨before, behind, hnames, -⟩ := h
  simp [hnames]

theorem lt_length_of_parameterNames {before behind : List Text}
    (h : e.parameterNames = before ++ x :: behind) : before.length < e.parameters.length := by
  have hlength := congrArg List.length h
  simp only [parameterNames, List.length_map, List.length_append, List.length_cons] at hlength
  omega

theorem IsFirstNamed.index (h : e.IsFirstNamed x i) : e.parameterIndex? x = some i := by
  obtain ⟨before, behind, hnames, hnot, rfl⟩ := h
  have hindex : e.parameterIndex? x = e.parameterNames.findIdx? (· == x) := by
    unfold parameterIndex? parameterNames
    rw [List.findIdx?_map]
    rfl
  have hbefore : before.findIdx? (· == x) = none := by
    rw [List.findIdx?_eq_none_iff]
    intro y hy
    simpa using ne_of_mem_of_not_mem hy hnot
  rw [hindex, hnames, List.findIdx?_append, hbefore, List.findIdx?_cons]
  simp

theorem IsFirstNamed.parameter (h : e.IsFirstNamed x i) :
    e.parameterNamed? x = e.parameters[i]? := by
  unfold parameterNamed?
  rw [List.find?_eq_bind_findIdx?_getElem?]
  have hindex : e.parameters.findIdx? (·.name == x) = some i := h.index
  rw [hindex, Option.bind_some]

/-- The first parameter of a name is the last one if the name stands once. -/
theorem IsFirstNamed.eq_iff (hi : e.IsFirstNamed x i) (hj : e.IsLastNamed x j) :
    i = j ↔ e.parameterNames.count x = 1 := by
  obtain ⟨before, behind, hfirst, hbefore, rfl⟩ := hi
  obtain ⟨before', behind', hlast, hbehind, rfl⟩ := hj
  have hcount : e.parameterNames.count x = 1 ↔ x ∉ behind := by
    rw [hfirst, List.count_append, List.count_cons_self, List.count_eq_zero.mpr hbefore,
      ← List.count_eq_zero]
    omega
  rw [hcount]
  constructor
  · intro hlength
    obtain ⟨-, hrest⟩ := List.append_inj (hfirst.symm.trans hlast) hlength
    obtain ⟨-, rfl⟩ := List.cons.inj hrest
    exact hbehind
  · intro hnot
    rcases List.append_eq_append_iff.mp (hfirst.symm.trans hlast) with
      ⟨middle, rfl, hrest⟩ | ⟨middle, rfl, hrest⟩
    · cases middle with
      | nil => simp
      | cons y middle =>
        obtain ⟨-, rfl⟩ := List.cons.inj hrest
        simp at hnot
    · cases middle with
      | nil => simp
      | cons y middle =>
        obtain ⟨-, rfl⟩ := List.cons.inj hrest
        simp at hbehind

end Effect

/-! ## The variables that the code starts with -/

namespace Bindings

variable {x : Text}

theorem ofList_append_singleton (pairs : List (Text × Text)) (p : Text × Text) :
    ofList (pairs ++ [p]) = bind p.1 p.2 (ofList pairs) := by
  rw [ofList_eq_foldl, ofList_eq_foldl, List.foldl_append]
  rfl

theorem value?_ofList_append_singleton (pairs : List (Text × Text)) (p : Text × Text) :
    value? (ofList (pairs ++ [p])) x = if p.1 = x then some p.2 else value? (ofList pairs) x := by
  rw [ofList_append_singleton]
  split
  next h => rw [← h, value?_bind_self]
  next h => exact value?_bind_ne _ _ (Ne.symm h)

theorem value?_ofList_eq_none {pairs : List (Text × Text)} (h : x ∉ pairs.map Prod.fst) :
    value? (ofList pairs) x = none := by
  induction pairs using List.reverseRecOn with
  | nil => rfl
  | append_singleton pairs p ih =>
    rw [List.map_append, List.mem_append, not_or] at h
    have hp : ¬ p.1 = x := fun hp => h.2 (by simp [hp])
    rw [value?_ofList_append_singleton, if_neg hp, ih h.1]

/-- The last text that a name is bound to is the one that it keeps. -/
theorem value?_ofList_last (before behind : List (Text × Text)) (text : Text)
    (h : x ∉ behind.map Prod.fst) :
    value? (ofList (before ++ (x, text) :: behind)) x = some text := by
  induction behind using List.reverseRecOn with
  | nil => rw [value?_ofList_append_singleton, if_pos rfl]
  | append_singleton behind p ih =>
    rw [List.map_append, List.mem_append, not_or] at h
    have hp : ¬ p.1 = x := fun hp => h.2 (by simp [hp])
    rw [← List.cons_append, ← List.append_assoc, value?_ofList_append_singleton, if_neg hp, ih h.1]

end Bindings

namespace Application

variable {a : Application} {values : List Text} {x : Text}

/-- The variables that the code starts with: the parameters, bound to values of the children. -/
def seeds (a : Application) (values : List Text) : Bindings :=
  Bindings.ofList (a.effect.effect.parameterNames.zip values)

theorem value?_seeds_of_isLastNamed {j : Nat} (h : a.effect.effect.IsLastNamed x j)
    (hlength : values.length = a.effect.effect.parameters.length) :
    (a.seeds values).value? x = values[j]? := by
  obtain ⟨before, behind, hnames, hnot, rfl⟩ := h
  have hlong : before.length < values.length := hlength ▸ Effect.lt_length_of_parameterNames hnames
  have hvalues := List.take_append_drop before.length values
  rw [List.drop_eq_getElem_cons hlong] at hvalues
  have hzip : a.effect.effect.parameterNames.zip values =
      before.zip (values.take before.length) ++
        (x, values[before.length]) :: behind.zip (values.drop (before.length + 1)) := by
    conv_lhs => rw [hnames, ← hvalues]
    rw [List.zip_append (by simp; omega), List.zip_cons_cons]
  unfold seeds
  rw [hzip, Bindings.value?_ofList_last, List.getElem?_eq_getElem hlong]
  intro hmem
  obtain ⟨⟨_, _⟩, hpair, rfl⟩ := List.mem_map.mp hmem
  exact hnot (List.of_mem_zip hpair).1

theorem value?_seeds_eq_none (h : x ∉ a.effect.effect.parameterNames) :
    (a.seeds values).value? x = none := by
  apply Bindings.value?_ofList_eq_none
  intro hmem
  obtain ⟨⟨_, _⟩, hpair, rfl⟩ := List.mem_map.mp hmem
  exact h (List.of_mem_zip hpair).1

theorem childNamed?_eq_none (h : x ∉ a.effect.effect.parameterNames) : a.childNamed? x = none := by
  have hindex : a.effect.effect.parameterIndex? x = none := by
    unfold Effect.parameterIndex?
    rw [List.findIdx?_eq_none_iff]
    intro p hp
    have hne : p.name ≠ x := fun hname => h (hname ▸ List.mem_map_of_mem hp)
    simpa using hne
  unfold childNamed?
  rw [hindex]
  rfl

end Application

/-- The value of an application is the trimmed text of its code, from these variables on. -/
theorem Synthesizer.evaluateEffect_eq {ε : Type} [Evaluator ε] {t : MatchTree} {n : NodeId}
    {a : Application} (h : t.Applies n a) (values : List Text) :
    (Environment.evaluateEffect t n values : Session (Synthesizer ε) Text) = do
      let snippet ← snippet a.effect
      let text ← onEvaluator (Evaluator.render t n a (a.seeds values) snippet)
      return Text.trim text := by
  change Synthesizer.evaluateEffect t n values = _
  unfold Synthesizer.evaluateEffect
  rw [MatchTree.application?_eq_some.mpr h]
  rfl

/-! ## What a name finds and what its variable starts with -/

/-- At a visit, the name `x` finds the first parameter of that name, which is number `i`, and its
child; the variable starts with the value for the last one, number `j`. -/
structure Visit.LooksUp (v : Visit) (a : Application) (x : Text) (i j : Nat) : Prop where
  index : a.effect.effect.parameterIndex? x = some i
  parameter : a.effect.effect.parameterNamed? x = a.effect.effect.parameters[i]?
  child : a.childNamed? x = a.children[i]?
  seed : (a.seeds v.values).value? x = v.values[j]?

/-- The variable of each parameter starts with the value of the child that is found by its name. -/
def Visit.SeedsNamedChildren (t : MatchTree) (overview : Bool) (visits : List Visit) (v : Visit)
    (a : Application) : Prop :=
  ∀ x ∈ a.effect.effect.parameterNames, ∃ c value, a.childNamed? x = some c ∧
    Gave t overview visits c value ∧ (a.seeds v.values).value? x = some value

section Visits

variable {t : MatchTree} {overview : Bool} {visits : List Visit} {v : Visit} {a : Application}

/-- A node gave one value, since it is visited once. -/
theorem Gave.unique (hnodup : (visits.map (·.node)).Nodup)
    (happlies : ∀ v ∈ visits, ∃ a, t.Applies v.node a) {n : NodeId} {value value' : Text}
    (h : Gave t overview visits n value) (h' : Gave t overview visits n value') :
    value = value' := by
  have happart : ∀ v ∈ visits, ∀ b, t.argument? v.node ≠ .ok (some b) := by
    intro v hv b hb
    obtain ⟨a, node, hnode, hkind⟩ := happlies v hv
    obtain ⟨node', hnode', hkind'⟩ := MatchTree.argument?_eq_some.mp hb
    cases hnode.symm.trans hnode'
    cases hkind.symm.trans hkind'
  rcases h with ⟨b, hb, rfl⟩ | ⟨v, hv, rfl, hanswer⟩
  · rcases h' with ⟨c, hc, rfl⟩ | ⟨w, hw, rfl, -⟩
    · cases hb.symm.trans hc
      rfl
    · exact absurd hb (happart w hw b)
  · rcases h' with ⟨c, hc, -⟩ | ⟨w, hw, hnode, hanswer'⟩
    · exact absurd hc (happart v hv c)
    · cases List.inj_on_of_nodup_map hnodup hw hv hnode
      cases hanswer.symm.trans hanswer'
      rfl

theorem Visit.looksUp {x : Text} {i j : Nat} (hi : a.effect.effect.IsFirstNamed x i)
    (hj : a.effect.effect.IsLastNamed x j)
    (hlength : v.values.length = a.effect.effect.parameters.length) : v.LooksUp a x i j where
  index := hi.index
  parameter := hi.parameter
  child := by
    unfold Application.childNamed?
    rw [hi.index]
    rfl
  seed := Application.value?_seeds_of_isLastNamed hj hlength

/-- Both ways of looking up a name speak of one value exactly where the first and the last parameter
of that name have the same one. -/
theorem Visit.seedsNamedChildren_iff
    (hgave : List.Forall₂ (Gave t overview visits) a.children v.values)
    (harity : a.children.length = a.effect.effect.parameters.length)
    (hunique : ∀ c value value', Gave t overview visits c value → Gave t overview visits c value' →
      value = value') :
    v.SeedsNamedChildren t overview visits a ↔ ∀ x i j, a.effect.effect.IsFirstNamed x i →
      a.effect.effect.IsLastNamed x j → v.values[i]? = v.values[j]? := by
  have hlength : v.values.length = a.effect.effect.parameters.length :=
    hgave.length_eq.symm.trans harity
  have hchild : ∀ x i j, a.effect.effect.IsFirstNamed x i → a.effect.effect.IsLastNamed x j →
      ∃ c value, a.childNamed? x = some c ∧ v.values[i]? = some value ∧
        Gave t overview visits c value := by
    intro x i j hi hj
    obtain ⟨before, behind, hnames, -, rfl⟩ := id hi
    have hlong := Effect.lt_length_of_parameterNames hnames
    refine ⟨_, _, ?_, List.getElem?_eq_getElem (hlength ▸ hlong),
      hgave.get (harity ▸ hlong) (hlength ▸ hlong)⟩
    rw [(looksUp hi hj hlength).child]
    exact List.getElem?_eq_getElem (harity ▸ hlong)
  constructor
  · intro hseeds x i j hi hj
    obtain ⟨c, value, hc, hvalue, hseed⟩ := hseeds x hi.mem
    obtain ⟨c', value', hc', hvalue', hgave'⟩ := hchild x i j hi hj
    cases hc.symm.trans hc'
    cases hunique c value value' hvalue hgave'
    rw [hvalue', ← (looksUp hi hj hlength).seed, hseed]
  · intro hsame x hx
    obtain ⟨i, hi⟩ := Effect.exists_isFirstNamed hx
    obtain ⟨j, hj⟩ := Effect.exists_isLastNamed hx
    obtain ⟨c, value, hc, hvalue, hgave'⟩ := hchild x i j hi hj
    refine ⟨c, value, hc, hgave', ?_⟩
    rw [(looksUp hi hj hlength).seed, ← hsame x i j hi hj, hvalue]

end Visits

/-- Whatever the evaluator, each application that an evaluation visits binds a name to the value for
the last parameter of that name, while the name finds the child of the first. Both are the same if
the name stands once, and they agree on all names where the first and the last values are equal. -/
theorem variables_start_with_the_last_of_a_name {ε : Type} [Evaluator ε]
    (steps : List MatchTree.Step) {n : NodeId} (hn : n < (MatchTree.build steps).size)
    (overview : Bool) (u : Traced (Synthesizer ε)) :
    let t := MatchTree.build steps
    ∃ visits : List Visit,
      (final (Environment.evaluate t n overview : Session (Traced (Synthesizer ε)) Text) u).calls =
        u.calls ++ .begun :: visits.map .visited ∧
      ∀ v ∈ visits, ∃ a, t.Applies v.node a ∧
        (Environment.evaluateEffect t v.node v.values : Session (Synthesizer ε) Text) = (do
          let snippet ← Synthesizer.snippet a.effect
          let text ← Synthesizer.onEvaluator
            (Evaluator.render t v.node a (a.seeds v.values) snippet)
          return Text.trim text) ∧
        List.Forall₂ (Gave t overview visits) a.children v.values ∧
        (∀ x, x ∉ a.effect.effect.parameterNames →
          a.childNamed? x = none ∧ (a.seeds v.values).value? x = none) ∧
        (∀ x i j, a.effect.effect.IsFirstNamed x i → a.effect.effect.IsLastNamed x j →
          v.LooksUp a x i j ∧ (i = j ↔ a.effect.effect.parameterNames.count x = 1)) ∧
        (v.SeedsNamedChildren t overview visits a ↔ ∀ x i j, a.effect.effect.IsFirstNamed x i →
          a.effect.effect.IsLastNamed x j → v.values[i]? = v.values[j]?) := by
  intro t
  have ht : t.WellFormed := MatchTree.wellFormed_build steps
  obtain ⟨visits, hcalls, hwalked, -⟩ := (evaluatesInOrder ht hn overview u).walk
  have happlies : ∀ v ∈ visits, ∃ a, t.Applies v.node a ∧
      List.Forall₂ (Gave t overview visits) a.children v.values := by
    intro v hv
    obtain ⟨pre, post, hsplit⟩ := List.append_of_mem hv
    obtain ⟨a, ha, hgave⟩ := hwalked.values pre v post hsplit
    refine ⟨a, ha, hgave.imp fun c value h => h.mono ?_⟩
    rw [hsplit]
    exact List.prefix_append _ _
  have hnodup : (visits.map (·.node)).Nodup :=
    (ht.nodup_postorder n).sublist hwalked.inOrder.sublist
  refine ⟨visits, hcalls, fun v hv => ?_⟩
  obtain ⟨a, ha, hgave⟩ := happlies v hv
  have harity := ht.arity _ a ha
  refine ⟨a, ha, Synthesizer.evaluateEffect_eq ha v.values, hgave, fun x hx => ?_,
    fun x i j hi hj => ?_, ?_⟩
  · exact ⟨Application.childNamed?_eq_none hx, Application.value?_seeds_eq_none hx⟩
  · exact ⟨Visit.looksUp hi hj (hgave.length_eq.symm.trans harity), hi.eq_iff hj⟩
  · refine Visit.seedsNamedChildren_iff hgave harity fun c value value' h h' => ?_
    exact h.unique hnodup (fun v hv => (happlies v hv).imp fun _ => And.left) h'

/-- An effect with two parameters of one name. -/
def repeatedEffect : SharedEffect :=
  ⟨0, { id := ['e'], parameters := [{ name := ['x'] }, { name := ['x'] }]
        code := "$\x7bx\x7d".toList }⟩

def repeatedSteps : List MatchTree.Step :=
  [.addArgument { text := some ['a'] }, .addArgument { text := some ['b'] },
    .addEffect repeatedEffect [] [0, 1]]

theorem applies_repeatedEffect :
    (MatchTree.build repeatedSteps).Applies 2 ⟨repeatedEffect, [], [0, 1], 3⟩ :=
  MatchTree.application?_eq_some.mp rfl

/-- The evaluation is one visit, with the texts of both arguments. -/
theorem exists_repeated_visit (u : Traced (Synthesizer Document)) :
    let t := MatchTree.build repeatedSteps
    let x : Session (Traced (Synthesizer Document)) Text := Environment.evaluate t 2 false
    ∀ value, outcome x u = .ok value → ∃ answer,
      (final x u).calls = u.calls ++ [.begun, .visited ⟨t, 2, [['a'], ['b']], answer⟩] := by
  intro t x value hout
  have horder : t.postorder 2 = [2] := by decide +kernel
  have hsize : 2 < t.size := by decide +kernel
  obtain ⟨visits, hcalls, hwalked, -⟩ :=
    (evaluatesInOrder (MatchTree.wellFormed_build repeatedSteps) hsize false u).walk
  obtain ⟨hnodes, -⟩ := hwalked.finished _ hout
  obtain ⟨v, rfl, hnode⟩ := List.map_eq_singleton_iff.mp (hnodes.trans horder)
  obtain ⟨a, ha, hgave⟩ := hwalked.values [] v [] rfl
  have hvalue : ∀ n text value, t.argument? n = .ok (some { text := some text }) →
      Gave t false [] n value → text = value := by
    rintro n text value hn (⟨b, hb, rfl⟩ | ⟨_, hv, -⟩)
    · cases hn.symm.trans hb
      rfl
    · cases hv
  rw [hnode] at ha
  cases ha.unique applies_repeatedEffect
  obtain ⟨tree, node, values, answer⟩ := v
  cases hwalked.tree _ List.mem_cons_self
  cases hnode
  rcases hgave with _ | ⟨h₀, _ | ⟨h₁, _ | _⟩⟩
  cases hvalue 0 ['a'] _ rfl h₀
  cases hvalue 1 ['b'] _ rfl h₁
  exact ⟨answer, hcalls⟩

theorem repeated_name_finds_the_first_and_stands_for_the_last :
    let t := MatchTree.build repeatedSteps
    let u : Traced (Synthesizer Document) := { state := { evaluator := .ofText [] {} } }
    let x : Session (Traced (Synthesizer Document)) Text := Environment.evaluate t 2 false
    2 < t.size ∧ outcome x u = .ok ['b'] ∧ ∃ (v : Visit) (a : Application),
      (final x u).calls = [.begun, .visited v] ∧ t.Applies 2 a ∧ v.LooksUp a ['x'] 0 1 := by
  intro t u x
  have hsize : 2 < t.size := by decide +kernel
  have hout : outcome x u = .ok ['b'] := by decide +kernel
  obtain ⟨answer, hvisit⟩ := exists_repeated_visit u _ hout
  obtain ⟨visits, hcalls, hvisits⟩ :=
    variables_start_with_the_last_of_a_name repeatedSteps hsize false u
  have hmem : (⟨t, 2, [['a'], ['b']], answer⟩ : Visit) ∈ visits := by
    have hsame : ([.begun, .visited ⟨t, 2, [['a'], ['b']], answer⟩] : List Call) =
        .begun :: visits.map .visited := hvisit.symm.trans hcalls
    obtain ⟨-, hsame⟩ := List.cons.inj hsame
    obtain ⟨v, hv, hvisited⟩ := List.mem_map.mp (hsame ▸ List.mem_singleton_self _)
    cases hvisited
    exact hv
  obtain ⟨a, ha, -, -, -, hnamed, -⟩ := hvisits _ hmem
  cases ha.unique applies_repeatedEffect
  exact ⟨hsize, hout, _, _, hvisit, ha, (hnamed ['x'] 0 1 ⟨[], [['x']], rfl, by simp, rfl⟩
    ⟨[['x']], [], rfl, by simp, rfl⟩).1⟩

/-- The variable stands for the text of the second argument, and the name finds the first. -/
theorem variable_of_a_repeated_name_misses_the_child_found :
    let t := MatchTree.build repeatedSteps
    let u : Traced (Synthesizer Document) := { state := { evaluator := .ofText [] {} } }
    let x : Session (Traced (Synthesizer Document)) Text := Environment.evaluate t 2 false
    ∃ (v : Visit) (a : Application), (final x u).calls = [.begun, .visited v] ∧ t.Applies v.node a ∧
      ¬ v.SeedsNamedChildren t false [v] a := by
  intro t u x
  have hout : outcome x u = .ok ['b'] := by decide +kernel
  obtain ⟨answer, hvisit⟩ := exists_repeated_visit u _ hout
  refine ⟨_, _, hvisit, applies_repeatedEffect, fun hseeds => ?_⟩
  obtain ⟨c, value, hchild, hgave, hseed⟩ := hseeds ['x'] List.mem_cons_self
  cases hchild
  cases hseed
  rcases hgave with ⟨b, hargument, hvalue⟩ | ⟨v, hv, hnode, -⟩
  · cases hargument
    cases hvalue
  · cases List.mem_singleton.mp hv
    cases hnode

end SnippetEngine
