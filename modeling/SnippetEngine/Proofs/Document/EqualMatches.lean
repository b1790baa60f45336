-- Equal matches in a document. They are valid in the same documents, and where their arguments have
-- the same fixed values, they evaluate alike and leave the same behind.
import SnippetEngine.Document.Environment
import SnippetEngine.Proofs.Match.Equality
import SnippetEngine.Proofs.Session.Cache
import SnippetEngine.Proofs.Session.Parameters

namespace SnippetEngine

open Session

/-! ## Texts and fixed values at nodes -/

namespace MatchTree

/-- The text of the argument at a node, if there is one. -/
def text? (t : MatchTree) (n : NodeId) : Option Text :=
  match t.argument? n with
  | .ok (some a) => a.text
  | _ => none

/-- The fixed value of the parameter of the argument at a node, if there is one. -/
def fixedValue? (t : MatchTree) (n : NodeId) : Option Text :=
  match t.argument? n with
  | .ok (some a) => a.parameter.bind (·.fixedValue)
  | _ => none

theorem text?_of_argument? {t : MatchTree} {n : NodeId} {a : Argument}
    (h : t.argument? n = .ok (some a)) : t.text? n = a.text := by
  unfold text?
  rw [h]

theorem fixedValue?_of_argument? {t : MatchTree} {n : NodeId} {a : Argument}
    (h : t.argument? n = .ok (some a)) : t.fixedValue? n = a.parameter.bind (·.fixedValue) := by
  unfold fixedValue?
  rw [h]

/-- The arguments stand at the leaves, so their texts are those at the leaves. -/
theorem map_text? {t : MatchTree} {s : Shape}
    (h : ∀ na ∈ s.arguments, t.argument? na.1 = .ok (some na.2)) :
    s.leaves.map t.text? = s.arguments.map (·.2.text) := by
  rw [Shape.leaves, List.map_map]
  exact List.map_congr_left fun na hna => text?_of_argument? (h na hna)

theorem map_fixedValue? {t : MatchTree} {s : Shape}
    (h : ∀ na ∈ s.arguments, t.argument? na.1 = .ok (some na.2)) :
    s.leaves.map t.fixedValue? =
      s.arguments.map (·.2.parameter.bind (·.fixedValue)) := by
  rw [Shape.leaves, List.map_map]
  exact List.map_congr_left fun na hna => fixedValue?_of_argument? (h na hna)

end MatchTree

/-- The values of the arguments of a match, from left to right. -/
def Shape.values (overview : Bool) (s : Shape) : List Text :=
  s.arguments.map (·.2.value overview)

theorem Shape.values_application (overview : Bool) (n : NodeId) (a : Application)
    (ss : List Shape) : (application n a ss).values overview = ss.flatMap (values overview) := by
  unfold values
  rw [arguments, argumentsOfAll_eq, List.map_flatMap]

theorem Argument.value_congr {a b : Argument} (htext : a.text = b.text)
    (hfixed : a.parameter.bind (·.fixedValue) = b.parameter.bind (·.fixedValue))
    (overview : Bool) : a.value overview = b.value overview := by
  unfold value
  rw [htext, hfixed]

theorem Shape.values_congr {s s' : Shape} (h : s.agrees s' = true)
    (hfixed : s.arguments.map (·.2.parameter.bind (·.fixedValue)) =
      s'.arguments.map (·.2.parameter.bind (·.fixedValue))) (overview : Bool) :
    s.values overview = s'.values overview := by
  have harguments := agrees_arguments h
  unfold values
  generalize s.arguments = nas, s'.arguments = mbs at harguments hfixed
  induction harguments with
  | nil => rfl
  | cons hab _ ih =>
    obtain ⟨hfirst, hrest⟩ := List.cons.inj hfixed
    rw [List.map_cons, List.map_cons, ih hrest,
      Argument.value_congr (Argument.sameValue_iff.mp hab).1 hfirst]

/-! ## Valid matches -/

namespace Document

theorem fits_congr {s s' : Shape} (h : s.agrees s' = true) (table : Compatibility)
    (parameter : Option Parameter) : fits table parameter s = fits table parameter s' := by
  cases s with
  | argument n a =>
    cases s' with
    | argument m b => rfl
    | application m b bs => cases h
  | application n a as =>
    cases s' with
    | argument m b => cases h
    | application m b bs =>
      simp only [fits, (Shape.agrees_application.mp h).1]

theorem testMatch_of_shape? {t : MatchTree} {n : NodeId} {s : Shape} (h : t.shape? n = some s)
    (d : Document) : d.testMatch t n = .ok (isValid d.compatibility s) := by
  rw [Document.testMatch, MatchTree.shape_eq_ok.mpr h]
  rfl

theorem isValid_congr {s s' : Shape} (h : s.agrees s' = true) (table : Compatibility) :
    isValid table s = isValid table s' := by
  apply Shape.agrees_induction (motive := fun s s' => isValid table s = isValid table s') ?_ ?_ s s' h
  · intro n a m b _
    rfl
  · intro n a as m b bs heffect hparts
    rw [isValid, isValid, heffect]
    generalize b.effect.effect.parameters = ps
    induction hparts generalizing ps with
    | nil => rfl
    | cons hab _ ih => rw [areValid, areValid, hab.2, fits_congr hab.1, ih]

/-! ## Evaluations -/

/-- Of an application that is evaluated, only the effect counts. -/
theorem evaluateEffect_congr {t u : MatchTree} {n m : NodeId} {a b : Application}
    (hn : t.Applies n a) (hm : u.Applies m b) (heffect : a.effect = b.effect)
    (values : List Text) :
    (Environment.evaluateEffect t n values : Session (Synthesizer Document) Text) =
      Environment.evaluateEffect u m values := by
  have hseeds : a.seeds values = b.seeds values := by
    unfold Application.seeds
    rw [heffect]
  rw [Synthesizer.evaluateEffect_eq hn, Synthesizer.evaluateEffect_eq hm, heffect, hseeds]
  congr 1
  funext found
  rw [render_congr rfl heffect t u n m]

/-- Where the matches stand in the trees and their arguments have the same values, they are evaluated
by the same steps. -/
def EvaluateAlike (t u : MatchTree) (overview : Bool) (s s' : Shape) : Prop :=
  ∀ n m, t.shape? n = some s → u.shape? m = some s' → s.values overview = s'.values overview →
    (Environment.evaluateShape t overview s : Session (Synthesizer Document) Text) =
      Environment.evaluateShape u overview s'

variable {t u : MatchTree} {overview : Bool}

theorem evaluateShapes_congr {as bs : List Shape}
    (hparts : List.Forall₂
      (fun s s' => s.agrees s' = true ∧ EvaluateAlike t u overview s s') as bs)
    {cs ds : List NodeId} (has : List.Forall₂ (fun c s => t.shape? c = some s) cs as)
    (hbs : List.Forall₂ (fun d s => u.shape? d = some s) ds bs)
    (hvalues : as.flatMap (Shape.values overview) = bs.flatMap (Shape.values overview)) :
    (Environment.evaluateShapes t overview as : Session (Synthesizer Document) (List Text)) =
      Environment.evaluateShapes u overview bs := by
  induction hparts generalizing cs ds with
  | nil => rw [Environment.evaluateShapes, Environment.evaluateShapes]
  | @cons s s' _ _ hs _ ih =>
    obtain ⟨hagrees, halike⟩ := hs
    rcases has with _ | ⟨hc, hcs⟩
    rcases hbs with _ | ⟨hd, hds⟩
    rw [List.flatMap_cons, List.flatMap_cons] at hvalues
    have hlength : (s.values overview).length = (s'.values overview).length := by
      unfold Shape.values
      rw [List.length_map, List.length_map, (Shape.agrees_arguments hagrees).length_eq]
    obtain ⟨hfirst, hrest⟩ := List.append_inj hvalues hlength
    rw [Environment.evaluateShapes, Environment.evaluateShapes, halike _ _ hc hd hfirst,
      ih hcs hds hrest]

theorem evaluateShape_congr (ht : t.WellFormed) (hu : u.WellFormed) {s s' : Shape}
    (h : s.agrees s' = true) : EvaluateAlike t u overview s s' := by
  apply Shape.agrees_induction (motive := EvaluateAlike t u overview) ?_ ?_ s s' h
  · intro n a m b _ _ _ _ _ hvalues
    obtain ⟨hvalue, -⟩ := List.cons.inj hvalues
    rw [Environment.evaluateShape, Environment.evaluateShape]
    exact congrArg pure hvalue
  · intro n a as m b bs heffect hparts k l hk hl hvalues
    obtain ⟨rfl, happlies, has⟩ := ht.of_shape?_application hk
    obtain ⟨rfl, happlies', hbs⟩ := hu.of_shape?_application hl
    rw [Shape.values_application, Shape.values_application] at hvalues
    rw [Environment.evaluateShape, Environment.evaluateShape,
      evaluateShapes_congr hparts has hbs hvalues]
    congr 1
    funext values
    exact evaluateEffect_congr happlies happlies' heffect values

end Document

/-! ## The law -/

/-- In all trees that can be built, equality of matches is an equivalence. Equal matches are complete
together, empty together and valid together, and their leaves have the same texts. If the leaves have
the same fixed values too, then from every session both evaluate to the same value or error and leave
the same session behind, with the same imports, helpers and cache. -/
theorem equal_matches_look_and_evaluate_alike (steps steps' steps'' : List MatchTree.Step)
    {n m k : NodeId} (hn : n < (MatchTree.build steps).size)
    (hm : m < (MatchTree.build steps').size) (hk : k < (MatchTree.build steps'').size) :
    let t := MatchTree.build steps
    let u := MatchTree.build steps'
    let v := MatchTree.build steps''
    t.equals n t n = .ok true ∧ (∃ b, t.equals n u m = .ok b ∧ u.equals m t n = .ok b) ∧
      (t.equals n u m = .ok true → u.equals m v k = .ok true → t.equals n v k = .ok true) ∧
      (t.equals n u m = .ok true →
        (∃ b, t.isComplete n = .ok b ∧ u.isComplete m = .ok b) ∧
        (∃ b, t.isEmpty n = .ok b ∧ u.isEmpty m = .ok b) ∧
        (∀ d : Document, ∃ b, d.testMatch t n = .ok b ∧ d.testMatch u m = .ok b) ∧
        ∃ ls ls', t.leaves n = .ok ls ∧ u.leaves m = .ok ls' ∧ ls.length = ls'.length ∧
          ls.map t.text? = ls'.map u.text? ∧
          (ls.map t.fixedValue? = ls'.map u.fixedValue? → ∀ overview (s : Synthesizer Document),
            outcome (Environment.evaluate t n overview) s =
              outcome (Environment.evaluate u m overview) s ∧
            final (Environment.evaluate t n overview) s =
              final (Environment.evaluate u m overview) s)) := by
  intro t u v
  have ht : t.WellFormed := MatchTree.wellFormed_build steps
  have hu : u.WellFormed := MatchTree.wellFormed_build steps'
  obtain ⟨s, hs, hargs⟩ := ht.exists_arguments hn
  obtain ⟨s', hs', hargs'⟩ := hu.exists_arguments hm
  obtain ⟨s'', hs'', -⟩ := (MatchTree.wellFormed_build steps'').exists_arguments hk
  refine ⟨?_, ⟨s.agrees s', ?_, ?_⟩, fun h h' => ?_, fun h => ?_⟩
  · rw [MatchTree.equals_of_shape? hs hs, s.agrees_refl]
  · exact MatchTree.equals_of_shape? hs hs'
  · rw [MatchTree.equals_of_shape? hs' hs, s'.agrees_comm]
  · rw [MatchTree.equals_of_shape? hs hs'] at h
    rw [MatchTree.equals_of_shape? hs' hs''] at h'
    rw [MatchTree.equals_of_shape? hs hs'',
      Shape.agrees_trans (Except.ok.inj h) s'' (Except.ok.inj h')]
  · rw [MatchTree.equals_of_shape? hs hs'] at h
    have hagrees : s.agrees s' = true := Except.ok.inj h
    refine ⟨⟨_, MatchTree.isComplete_of_shape? hs, ?_⟩, ⟨_, MatchTree.isEmpty_of_shape? hs, ?_⟩,
      fun d => ⟨_, Document.testMatch_of_shape? hs d, ?_⟩, s.leaves, s'.leaves,
      MatchTree.leaves_of_shape? hs, MatchTree.leaves_of_shape? hs', ?_, ?_,
      fun hfixed overview x => ?_⟩
    · rw [MatchTree.isComplete_of_shape? hs', Shape.isComplete_congr hagrees]
    · rw [MatchTree.isEmpty_of_shape? hs', Shape.isEmpty_congr hagrees]
    · rw [Document.testMatch_of_shape? hs', Document.isValid_congr hagrees]
    · rw [Shape.leaves, Shape.leaves, List.length_map, List.length_map,
        (Shape.agrees_arguments hagrees).length_eq]
    · rw [MatchTree.map_text? hargs, MatchTree.map_text? hargs', Shape.texts_congr hagrees]
    · rw [MatchTree.map_fixedValue? hargs, MatchTree.map_fixedValue? hargs'] at hfixed
      have halike : Document.EvaluateAlike t u overview s s' :=
        Document.evaluateShape_congr ht hu hagrees
      unfold outcome final
      rw [run_evaluate hs, run_evaluate hs',
        halike n m hs hs' (Shape.values_congr hagrees hfixed overview)]
      exact ⟨rfl, rfl⟩

/-- An effect with one parameter, which asks for an import. -/
def importingEffect : SharedEffect :=
  ⟨0, { id := ['e'], parameters := [{ name := ['x'] }],
        code := "$\x7bimport(l)\x7d$\x7bx\x7d".toList }⟩

/-- An argument, and the effect on it. -/
def plainSteps : List MatchTree.Step :=
  [.addArgument { text := some ['a'] }, .addEffect importingEffect [] [0]]

/-- The effect on an argument with the same text, found by another pattern and classified, behind an
argument that stays alone. Its ghost has a text. -/
def classifiedSteps : List MatchTree.Step :=
  [.addArgument {}, .addArgument { text := some ['a'] }, .addEffect importingEffect ['p'] [1],
    .setMatchType 2 .exact, .setArgument 3 (some ['g'])]

/-- Neither the pattern nor the classification nor the ghost counts. -/
theorem classified_match_evaluates_like_the_plain_one :
    let t := MatchTree.build plainSteps
    let u := MatchTree.build classifiedSteps
    let x : Session (Synthesizer Document) Text := Environment.evaluate t 1 false
    let y : Session (Synthesizer Document) Text := Environment.evaluate u 2 false
    let s : Synthesizer Document := { evaluator := Document.ofText [] {} }
    (1 < t.size ∧ 2 < u.size) ∧ t.equals 1 u 2 = .ok true ∧ u.equals 2 t 1 = .ok true ∧
      u.isComplete 2 = .ok true ∧ outcome x s = .ok ['a'] ∧ outcome y s = .ok ['a'] ∧
      (final y s).evaluator.gathered.imports = [['l']] := by
  intro t u x y s
  have hsize : 1 < t.size := by decide +kernel
  have hsize' : 2 < u.size := by decide +kernel
  have hequal : t.equals 1 u 2 = .ok true := by decide +kernel
  have hleaves : t.leaves 1 = .ok [0] := by decide +kernel
  have hleaves' : u.leaves 2 = .ok [1] := by decide +kernel
  have hcomplete : t.isComplete 1 = .ok true := by decide +kernel
  have hvalue : outcome x s = .ok ['a'] := by decide +kernel
  have himports : (final x s).evaluator.gathered.imports = [['l']] := by decide +kernel
  obtain ⟨-, ⟨b, heq, heq'⟩, -, hrest⟩ :=
    equal_matches_look_and_evaluate_alike plainSteps classifiedSteps plainSteps hsize hsize' hsize
  cases hequal.symm.trans heq
  obtain ⟨⟨b, hb, hb'⟩, -, -, ls, ls', hls, hls', -, -, halike⟩ := hrest hequal
  cases hcomplete.symm.trans hb
  cases hleaves.symm.trans hls
  cases hleaves'.symm.trans hls'
  obtain ⟨houtcome, hfinal⟩ := halike (by decide +kernel) false s
  refine ⟨⟨hsize, hsize'⟩, hequal, heq', hb', hvalue, houtcome.symm.trans hvalue, ?_⟩
  rw [← show final x s = final y s from hfinal]
  exact himports

end SnippetEngine
