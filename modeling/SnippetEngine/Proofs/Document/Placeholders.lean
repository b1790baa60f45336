-- Overviews are evaluations of another match. If each leaf gets its text with a `$` in front, the
-- match evaluates to its overview and leaves behind what the overview leaves, since of an argument
-- nothing but its value goes into an evaluation.
import SnippetEngine.Proofs.Document.EqualMatches
import SnippetEngine.Proofs.Session.Walk

namespace SnippetEngine

open Session

/-! ## Placeholders -/

/-- The argument with a placeholder for its text. -/
def Argument.placeholder (a : Argument) : Argument :=
  { a with text := some ('$' :: a.text.getD []) }

/-- In an overview an argument has the value of its placeholder. -/
theorem Argument.value_placeholder (a : Argument) : a.placeholder.value false = a.value true := by
  unfold value placeholder
  rcases a.parameter.bind (·.fixedValue) with _ | value
  · rfl
  · rfl

/-- A fixed value is no text, so it is the same in an overview. -/
theorem Argument.value_of_fixedValue {a : Argument}
    (h : (a.parameter.bind (·.fixedValue)).isSome = true) : a.value true = a.value false := by
  obtain ⟨value, hvalue⟩ := Option.isSome_iff_exists.mp h
  unfold Argument.value
  rw [hvalue]

/-- The node with a placeholder if it is that of an argument. -/
def MatchNode.withPlaceholder (node : MatchNode) : MatchNode :=
  match node.kind with
  | .argument a => { node with kind := .argument a.placeholder }
  | .application _ => node

namespace MatchTree

/-- Writes a `$` in front of the text of an argument. -/
def writePlaceholder (l : NodeId) : Build Bool := do
  let t ← get
  setArgument l (some ('$' :: (t.text? l).getD []))

/-- Writes a `$` in front of the text of each leaf of the match at a node. -/
def writePlaceholders (n : NodeId) : Build (List Bool) := do
  let t ← get
  (← t.leaves n).mapM writePlaceholder

variable {t u : MatchTree} {n l : NodeId}

theorem exists_run_writePlaceholder (h : t.IsArgument l) :
    ∃ u, (writePlaceholder l).run.run t = (.ok true, u) ∧
      ∀ m, u.node? m = if m = l then (t.node? m).map MatchNode.withPlaceholder else t.node? m := by
  obtain ⟨a, ha⟩ := h
  obtain ⟨node, hnode, hk⟩ := argument?_eq_some.mp ha
  refine ⟨_, setArgument_of_argument? ha, fun m => ?_⟩
  rw [node?_update, text?_of_argument? ha]
  by_cases hm : l = m
  · subst hm
    rw [if_pos rfl, if_pos rfl, hnode]
    simp only [Option.map_some, MatchNode.withPlaceholder, hk]
    rfl
  · rw [if_neg hm, if_neg (Ne.symm hm)]

/-- Each of the arguments gets its placeholder, and nothing else is written. -/
theorem exists_run_mapM_writePlaceholder {ls : List NodeId} (hnodup : ls.Nodup)
    (h : ∀ l ∈ ls, t.IsArgument l) :
    ∃ u, (ls.mapM writePlaceholder).run.run t = (.ok (ls.map fun _ => true), u) ∧
      ∀ m, u.node? m = if m ∈ ls then (t.node? m).map MatchNode.withPlaceholder else t.node? m := by
  induction ls generalizing t with
  | nil => exact ⟨t, rfl, fun m => rfl⟩
  | cons l ls ih =>
    obtain ⟨hl, hls⟩ := List.forall_mem_cons.mp h
    obtain ⟨hnot, hnodup⟩ := List.nodup_cons.mp hnodup
    obtain ⟨t', hrun, hnodes⟩ := exists_run_writePlaceholder hl
    have hkept : ∀ m, m ≠ l → t'.node? m = t.node? m := fun m hm => by rw [hnodes, if_neg hm]
    have hls' : ∀ m ∈ ls, t'.IsArgument m := by
      intro m hm
      obtain ⟨a, ha⟩ := hls m hm
      obtain ⟨node, hnode, hk⟩ := argument?_eq_some.mp ha
      have hne : m ≠ l := fun heq => hnot (heq ▸ hm)
      exact ⟨a, argument?_eq_some.mpr ⟨node, (hkept m hne).trans hnode, hk⟩⟩
    obtain ⟨u, hrun', hnodes'⟩ := ih hnodup hls'
    refine ⟨u, ?_, fun m => ?_⟩
    · rw [List.mapM_cons, run_bind_of_ok _ hrun, run_bind_of_ok _ hrun']
      rfl
    · rw [hnodes' m]
      by_cases hm : m = l
      · subst hm
        rw [if_neg hnot, if_pos List.mem_cons_self, hnodes, if_pos rfl]
      · rw [hkept m hm]
        simp only [List.mem_cons, hm, false_or]

theorem WellFormed.exists_run_writePlaceholders (h : t.WellFormed) (hn : n < t.size) :
    ∃ u, (writePlaceholders n).run.run t = (.ok ((t.leavesBelow n).map fun _ => true), u) ∧
      ∀ m, u.node? m =
        if m ∈ t.leavesBelow n then (t.node? m).map MatchNode.withPlaceholder else t.node? m := by
  have hrun : (writePlaceholders n).run.run t =
      ((t.leavesBelow n).mapM writePlaceholder).run.run t := by
    unfold writePlaceholders
    rw [run_get_bind, (h.answers hn).1]
    exact run_bind_of_ok _ (run_liftM _ t)
  rw [hrun]
  exact exists_run_mapM_writePlaceholder (h.nodup_leavesBelow n) fun l hl =>
    (h.mem_leavesBelow.mp hl).1

theorem keeps_writePlaceholders (n : NodeId) : Keeps (writePlaceholders n) := by
  unfold writePlaceholders writePlaceholder
  refine keeps_bind keeps_get fun t => keeps_bind (keeps_lift _) fun ls => ?_
  refine keeps_mapM (fun l => ?_) ls
  exact keeps_bind keeps_get fun t => keeps_setArgument l _

end MatchTree

/-! ## Matches with the same values -/

section SameValues

variable {t u : MatchTree} {n c : NodeId} {overview overview' : Bool}

/-- Below the node, the tree `u` has the applications of `t`, and where `t` has an argument it has
one with the same value, each in its mode. -/
structure MatchTree.SameValues (t u : MatchTree) (n : NodeId) (overview overview' : Bool) :
    Prop where
  applies : ∀ m a, t.IsBelow m n → t.Applies m a → u.Applies m a
  value : ∀ m a, t.IsBelow m n → t.argument? m = .ok (some a) →
    ∃ b, u.argument? m = .ok (some b) ∧ a.value overview = b.value overview'

theorem MatchTree.SameValues.child (h : t.SameValues u n overview overview') (hc : t.IsChild c n) :
    t.SameValues u c overview overview' where
  applies m a hm := h.applies m a (hm.tail hc)
  value m a hm := h.value m a (hm.tail hc)

namespace Document

/-- The match at the node has a shape in the other tree too, and it is evaluated by the same steps.
-/
def IsEvaluatedAlike (t u : MatchTree) (overview overview' : Bool) (n : NodeId) (s : Shape) :
    Prop :=
  t.SameValues u n overview overview' → ∃ s', u.shape? n = some s' ∧
    (Environment.evaluateShape t overview s : Session (Synthesizer Document) Text) =
      Environment.evaluateShape u overview' s'

theorem exists_evaluateShapes_alike {cs : List NodeId} {ss : List Shape}
    (h : List.Forall₂ (IsEvaluatedAlike t u overview overview') cs ss)
    (hvalues : ∀ c ∈ cs, t.SameValues u c overview overview') :
    ∃ ss', List.Forall₂ (fun c s => u.shape? c = some s) cs ss' ∧
      (Environment.evaluateShapes t overview ss : Session (Synthesizer Document) (List Text)) =
        Environment.evaluateShapes u overview' ss' := by
  induction h with
  | nil => exact ⟨[], .nil, rfl⟩
  | cons hc _ ih =>
    obtain ⟨hfirst, hrest⟩ := List.forall_mem_cons.mp hvalues
    obtain ⟨s', hs', halike⟩ := hc hfirst
    obtain ⟨ss', hss', halikes⟩ := ih hrest
    refine ⟨s' :: ss', .cons hs' hss', ?_⟩
    rw [Environment.evaluateShapes, Environment.evaluateShapes, halike, halikes]

theorem exists_isEvaluatedAlike (ht : t.WellFormed) (hu : u.WellFormed) (hn : n < t.size) :
    ∃ s, t.shape? n = some s ∧ IsEvaluatedAlike t u overview overview' n s := by
  refine ht.exists_shape (motive := IsEvaluatedAlike t u overview overview')
    (fun n a ha hvalues => ?_) (fun n a ss happlies hss hvalues => ?_) hn
  · obtain ⟨b, hb, hvalue⟩ := hvalues.value n a .refl ha
    obtain ⟨node, hnode, hk⟩ := MatchTree.argument?_eq_some.mp hb
    refine ⟨_, MatchTree.shape?_argument hnode hk, ?_⟩
    rw [Environment.evaluateShape, Environment.evaluateShape, hvalue]
  · obtain ⟨ss', hss', halike⟩ := exists_evaluateShapes_alike (hss.imp fun _ _ h => h.2)
      fun c hc => hvalues.child ⟨a, happlies, hc⟩
    have happlies' := hvalues.applies n a .refl happlies
    have hearlier := hu.earlier n a happlies'
    refine ⟨_, MatchTree.shape?_application happlies'
      ((List.forall₂_and_left a.children ss').mpr ⟨hearlier, hss'⟩), ?_⟩
    rw [Environment.evaluateShape, Environment.evaluateShape, halike]
    congr 1
    funext values
    exact evaluateEffect_congr happlies happlies' rfl values

end Document

/-- Of an argument nothing but its value goes into an evaluation. -/
theorem MatchTree.SameValues.run_evaluate_eq (h : t.SameValues u n overview overview')
    (ht : t.WellFormed) (hu : u.WellFormed) (hn : n < t.size) (s : Synthesizer Document) :
    (Environment.evaluate t n overview).run.run s =
      (Environment.evaluate u n overview').run.run s := by
  obtain ⟨shape, hshape, halike⟩ := Document.exists_isEvaluatedAlike ht hu hn
  obtain ⟨shape', hshape', halike⟩ := halike h
  rw [run_evaluate hshape, run_evaluate hshape', halike]

end SameValues

/-! ## The law -/

namespace MatchTree

variable {t u : MatchTree} {n : NodeId}

/-- With a placeholder for each leaf, the values are those of the overview. -/
theorem WellFormed.sameValues_placeholders (ht : t.WellFormed)
    (hnodes : ∀ m, u.node? m =
      if m ∈ t.leavesBelow n then (t.node? m).map MatchNode.withPlaceholder else t.node? m) :
    t.SameValues u n true false where
  applies := by
    intro m a hm happlies
    have hnot : m ∉ t.leavesBelow n := by
      intro hleaf
      obtain ⟨⟨b, hb⟩, -⟩ := ht.mem_leavesBelow.mp hleaf
      exact not_applies_of_argument? hb a happlies
    unfold Applies
    rw [hnodes, if_neg hnot]
    exact happlies
  value := by
    intro m a hm ha
    have hleaf : m ∈ t.leavesBelow n := ht.mem_leavesBelow.mpr ⟨⟨a, ha⟩, hm⟩
    obtain ⟨node, hnode, hk⟩ := argument?_eq_some.mp ha
    refine ⟨a.placeholder, argument?_eq_some.mpr ⟨node.withPlaceholder, ?_, ?_⟩,
      a.value_placeholder.symm⟩
    · rw [hnodes, if_pos hleaf, hnode]
      rfl
    · unfold MatchNode.withPlaceholder
      rw [hk]

theorem WellFormed.sameValues_fixed (ht : t.WellFormed)
    (hfixed : ∀ l ∈ t.leavesBelow n, (t.fixedValue? l).isSome = true) :
    t.SameValues t n true false where
  applies _ _ _ happlies := happlies
  value := by
    intro m a hm ha
    have hleaf := hfixed m (ht.mem_leavesBelow.mpr ⟨⟨a, ha⟩, hm⟩)
    rw [fixedValue?_of_argument? ha] at hleaf
    exact ⟨a, ha, Argument.value_of_fixedValue hleaf⟩

end MatchTree

/-- In every tree that can be built, the leaves of a match can be given their texts with a `$` in
front, which changes these arguments and no other node. From every session, the match then evaluates
to what it had in an overview before, value or error, and leaves the same session behind. If all
leaves have fixed values, the overview is the evaluation of the match itself. -/
theorem overviews_evaluate_placeholders (steps : List MatchTree.Step) {n : NodeId}
    (hn : n < (MatchTree.build steps).size) :
    let t := MatchTree.build steps
    ∃ ls u, t.leaves n = .ok ls ∧
      (MatchTree.writePlaceholders n).run.run t = (.ok (ls.map fun _ => true), u) ∧
      (∀ m, u.node? m =
        if m ∈ ls then (t.node? m).map MatchNode.withPlaceholder else t.node? m) ∧
      (∀ s : Synthesizer Document, (Environment.evaluate t n true).run.run s =
        (Environment.evaluate u n false).run.run s) ∧
      ((∀ l ∈ ls, (t.fixedValue? l).isSome = true) →
        ∀ s : Synthesizer Document, (Environment.evaluate t n true).run.run s =
          (Environment.evaluate t n false).run.run s) := by
  intro t
  have ht : t.WellFormed := MatchTree.wellFormed_build steps
  obtain ⟨u, hrun, hnodes⟩ := ht.exists_run_writePlaceholders hn
  have hu : u.WellFormed := (MatchTree.keeps_writePlaceholders n).wellFormed ht hrun
  exact ⟨t.leavesBelow n, u, (ht.answers hn).1, hrun, hnodes,
    (ht.sameValues_placeholders hnodes).run_evaluate_eq ht hu hn,
    fun hfixed => (ht.sameValues_fixed hfixed).run_evaluate_eq ht ht hn⟩

/-- An effect with its argument as the first child of another, whose second child has a fixed value.
The other one asks for a type and for a name that depend on the values. -/
def askingSteps : List MatchTree.Step :=
  let z : Parameter := { name := ['z'], fixedValue := some ['f'] }
  [.addArgument { text := some ['a'] },
    .addEffect ⟨0, { id := ['i'], parameters := [{ name := ['x'] }]
                     code := "$\x7bx\x7d".toList }⟩ [] [0],
    .addArgument { parameter := some z, text := some ['b'] },
    .addEffect ⟨1, { id := ['o'], parameters := [{ name := ['y'] }, z]
                     code := "$\x7belemType(y)\x7d $\x7bfreeName(a)\x7d $\x7bz\x7d".toList }⟩
      [] [1, 3]]

/-- A document in which a variable is declared that has the name of the placeholder. -/
def askingSession : Synthesizer Document :=
  { evaluator := (Document.ofText [] {}).declare "$a".toList "int[]".toList }

/-- The match with placeholders finds the type and takes the name, as the overview does, and unlike
the match itself. At the argument with the fixed value there is no difference. -/
theorem placeholder_has_a_type_and_leaves_the_name :
    let t := MatchTree.build askingSteps
    let s := askingSession
    4 < t.size ∧ ∃ u, (MatchTree.writePlaceholders 4).run.run t = (.ok [true, true], u) ∧
      outcome (Environment.evaluate t 4 true) s = .ok "int a f".toList ∧
      outcome (Environment.evaluate u 4 false) s = .ok "int a f".toList ∧
      (final (Environment.evaluate u 4 false) s).evaluator.gathered.reserved = [['a']] ∧
      outcome (Environment.evaluate t 4 false) s = .ok "a2 f".toList ∧
      t.fixedValue? 3 = some ['f'] ∧
      outcome (Environment.evaluate t 3 false) s = .ok ['f'] := by
  intro t s
  have hsize : 4 < t.size := by decide +kernel
  have hleaves : t.leaves 4 = .ok [0, 3] := by decide +kernel
  have hleaf : t.leaves 3 = .ok [3] := by decide +kernel
  have hfixed : t.fixedValue? 3 = some ['f'] := by decide +kernel
  have hoverview : outcome (Environment.evaluate t 4 true) s = .ok "int a f".toList := by
    decide +kernel
  have hreserved : (final (Environment.evaluate t 4 true) s).evaluator.gathered.reserved =
      [['a']] := by
    decide +kernel
  have hvalue : outcome (Environment.evaluate t 3 true) s = .ok ['f'] := by decide +kernel
  obtain ⟨ls, u, hls, hrun, -, hsame, -⟩ := overviews_evaluate_placeholders askingSteps hsize
  cases hleaves.symm.trans hls
  obtain ⟨ls, -, hls, -, -, -, hmodes⟩ :=
    overviews_evaluate_placeholders askingSteps (Nat.lt_trans (by decide : 3 < 4) hsize)
  cases hleaf.symm.trans hls
  have hfixed' : ∀ l ∈ [3], (t.fixedValue? l).isSome = true := by
    intro l hl
    rw [List.mem_singleton.mp hl, hfixed]
    rfl
  unfold outcome final at *
  refine ⟨hsize, u, hrun, hoverview, ?_, ?_, by decide +kernel, hfixed, ?_⟩
  · rw [← hsame s]
    exact hoverview
  · rw [← hsame s]
    exact hreserved
  · rw [← hmodes hfixed' s]
    exact hvalue

end SnippetEngine
