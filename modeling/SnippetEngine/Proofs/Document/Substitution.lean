-- Matches of templates that only substitute. Their evaluation is the plain recursion over the
-- match: arguments give their texts, and an application fills the values of its children into the
-- parts of its template. A value is written as it is and never read as a template again, and nothing
-- else is asked of the document.
import SnippetEngine.Proofs.Document.Contributions
import SnippetEngine.Proofs.Match.Shapes
import SnippetEngine.Proofs.Template.Substitution

namespace SnippetEngine

open Session Text

/-! ## The recursion over a match -/

/-- The value of the child that belongs to the parameter. -/
def Effect.valueFor (e : Effect) (values : List Text) (name : Text) : Text :=
  ((e.parameterIndex? name).bind (values[·]?)).getD []

namespace Shape

mutual

/-- An argument gives the fixed value of its parameter if there is one, and else its text, behind a
`$` in an overview. An application gives its parts, trimmed, with the value of a child for each
reference. -/
def substituted (parts : SharedEffect → List Part) (overview : Bool) : Shape → Text
  | argument _ a =>
    (a.parameter.bind (·.fixedValue)).getD ((if overview then ['$'] else []) ++ a.text.getD [])
  | application _ a children =>
    let values := substitutedAll parts overview children
    trim ((parts a.effect).flatMap (Part.filled (a.effect.effect.valueFor values)))

def substitutedAll (parts : SharedEffect → List Part) (overview : Bool) : List Shape → List Text
  | [] => []
  | s :: ss => s.substituted parts overview :: substitutedAll parts overview ss

end

theorem substitutedAll_eq_map (parts : SharedEffect → List Part) (overview : Bool)
    (ss : List Shape) : substitutedAll parts overview ss = ss.map (substituted parts overview) := by
  induction ss with
  | nil => rfl
  | cons s ss ih => rw [substitutedAll, ih, List.map_cons]

end Shape

theorem Argument.value_eq (a : Argument) (overview : Bool) :
    a.value overview =
      (a.parameter.bind (·.fixedValue)).getD
        ((if overview then ['$'] else []) ++ a.text.getD []) := by
  unfold Argument.value
  rcases a.parameter.bind (·.fixedValue) with _ | value
  · cases overview
    · rfl
    · rfl
  · rfl

/-! ## The variables of an application -/

namespace Bindings

theorem bind_of_not_mem {name : Text} {bs : Bindings} (h : name ∉ bs.names) (text : Text) :
    bs.bind name text = bs ++ [(name, text)] := by
  induction bs with
  | nil => rfl
  | cons b bs ih =>
    obtain ⟨hne, hrest⟩ := not_or.mp (mt List.mem_cons.mpr h)
    rw [bind, if_neg (Ne.symm hne), ih hrest]
    rfl

/-- Pairs with different names are bound as they are. -/
theorem ofList_eq_self {pairs : List (Text × Text)} (h : (pairs.map Prod.fst).Nodup) :
    ofList pairs = pairs := by
  rw [ofList_eq_foldl]
  suffices ∀ bs : Bindings, (names bs ++ pairs.map Prod.fst).Nodup →
      pairs.foldl (fun bs p => bind p.1 p.2 bs) bs = bs ++ pairs from
    this [] (by simpa [names] using h)
  clear h
  induction pairs with
  | nil => exact fun bs _ => (List.append_nil bs).symm
  | cons p pairs ih =>
    intro bs hbs
    have hnew : p.1 ∉ names bs := by
      intro hmem
      exact (List.nodup_append.mp hbs).2.2 _ hmem _ List.mem_cons_self rfl
    have hfirst : bind p.1 p.2 bs = bs ++ [p] := bind_of_not_mem hnew p.2
    rw [List.foldl_cons]
    change List.foldl _ (bind p.1 p.2 bs) pairs = _
    rw [hfirst, ih]
    · simp
    · simpa [names] using hbs

theorem value?_zip (ps : List Parameter) (values : List Text) (name : Text) :
    value? ((ps.map (·.name)).zip values) name =
      (ps.findIdx? (·.name == name)).bind (values[·]?) := by
  induction ps generalizing values with
  | nil => rfl
  | cons p ps ih =>
    cases values with
    | nil => simp [value?]
    | cons v values =>
      by_cases hp : p.name = name
      · simp [value?, List.findIdx?_cons, hp]
      · have hvalue : value? (((p :: ps).map (·.name)).zip (v :: values)) name =
            value? ((ps.map (·.name)).zip values) name := by simp [value?, hp]
        have hindex : (p :: ps).findIdx? (·.name == name) =
            (ps.findIdx? (·.name == name)).map (· + 1) := by simp [List.findIdx?_cons, hp]
        rw [hvalue, hindex, Option.bind_map]
        exact ih values

end Bindings

theorem Effect.parameterIndex?_of_mem {e : Effect} {name : Text}
    (h : name ∈ e.parameters.map (·.name)) :
    ∃ i < e.parameters.length, e.parameterIndex? name = some i := by
  obtain ⟨p, hp, hname⟩ := List.mem_map.mp h
  rcases hi : e.parameters.findIdx? (·.name == name) with _ | i
  · have := List.findIdx?_eq_none_iff.mp hi p hp
    simp [hname] at this
  · exact ⟨i, (List.findIdx?_eq_some_iff_findIdx_eq.mp hi).1, hi⟩

/-- The parameters of an application are bound to the values of the children, if they have
different names. -/
theorem Effect.IsWrittenAs.value?_scope {e : Effect} {ps : List Part} (h : e.IsWrittenAs ps)
    {values : List Text} (hlength : values.length = e.parameters.length) {name : Text}
    (hname : name ∈ e.parameters.map (·.name)) :
    Bindings.value? (Bindings.ofList ((e.parameters.map (·.name)).zip values)) name =
      some (e.valueFor values name) := by
  have hnames : ((e.parameters.map (·.name)).zip values).map Prod.fst =
      e.parameters.map (·.name) := by
    rw [List.map_fst_zip]
    simp [hlength]
  rw [Bindings.ofList_eq_self (by rw [hnames]; exact h.areDistinct), Bindings.value?_zip]
  obtain ⟨i, hi, hindex⟩ := Effect.parameterIndex?_of_mem hname
  unfold Effect.valueFor
  rw [hindex]
  rw [Effect.parameterIndex?] at hindex
  rw [hindex, Option.bind_some, List.getElem?_eq_getElem (hlength ▸ hi)]
  rfl

namespace Document

variable {d : Document}

/-! ## Parts in a document -/

/-- A part gives its text and changes nothing, if its name is bound and no helper is open. -/
theorem run_contribution_part (hd : d.gathered.inHelper = false) (site : Site) {scope : Bindings}
    (value : Text → Text) {q : Part}
    (hvalue : ∀ name, q = .reference name → scope.value? name = some (value name)) :
    (contribution site scope q.piece).run d = (⟨q.filled value, none⟩, d) := by
  have hrepresented : (represented site scope q.piece).run d = (q.filled value, d) := by
    cases q with
    | text literal => rfl
    | reference name =>
      change (valueOf site scope name).run d = _
      unfold valueOf
      rw [hvalue name rfl]
      rfl
  rw [run_contribution, hrepresented]
  unfold openHelper? receive
  simp [hd]

theorem run_contributions_parts (hd : d.gathered.inHelper = false) (t : MatchTree) (n : NodeId)
    (a : Application) (e : SharedEffect) {scope : Bindings} {value : Text → Text} {qs : List Part}
    (hvalue : ∀ name, .reference name ∈ qs → scope.value? name = some (value name)) :
    (contributions t n a scope ((qs.map Part.piece).map (SnippetNode.mk e))).run d =
      (qs.map fun q => ⟨q.filled value, none⟩, d) := by
  induction qs with
  | nil => rfl
  | cons q qs ih =>
    have hkept : scope.keep q.piece.capture? (q.filled value) = scope := by
      cases q with
      | text literal => rfl
      | reference name => rfl
    have hfirst := run_contribution_part hd ⟨t, n, a, e⟩ value
      fun name (hq : q = .reference name) => hvalue name (hq ▸ List.mem_cons_self)
    have hrest := ih fun name hname => hvalue name (List.mem_cons_of_mem _ hname)
    rw [List.map_cons, List.map_cons, run_contributions_cons, hfirst]
    rw [← hkept] at hrest
    exact congrArg (fun r => (⟨q.filled value, none⟩ :: r.1, r.2)) hrest

theorem run_evaluateAfresh {t : MatchTree} {n : NodeId} {a : Application} {ps : List Part}
    (hd : d.gathered.inHelper = false) (happlies : t.Applies n a)
    (hwritten : a.effect.effect.IsWrittenAs ps) {values : List Text}
    (hlength : values.length = a.effect.effect.parameters.length) :
    (evaluateAfresh t n values).run.run d =
      (.ok (trim (ps.flatMap (Part.filled (a.effect.effect.valueFor values)))), d) := by
  obtain ⟨qs, hcompile, hfilled, hrefs⟩ := Snippet.compile_written hwritten
  have hrun := run_render t n a
    (Bindings.ofList ((a.effect.effect.parameters.map (·.name)).zip values))
    ((qs.map Part.piece).map (SnippetNode.mk a.effect)) d
  rw [run_contributions_parts hd t n a a.effect fun name hname =>
    hwritten.value?_scope hlength (hwritten.areParameters name (hrefs name hname))] at hrun
  unfold evaluateAfresh
  rw [MatchTree.application?_eq_some.mpr happlies, ok_lift_bind]
  simp only [hcompile, ok_lift_bind]
  refine (run_bind_ok _ (congrArg Prod.fst hrun)).trans ?_
  unfold final
  rw [hrun, ← hfilled]
  simp [Contribution.textFor, List.filter_map, Function.comp_def, List.flatMap_map]
  rfl

/-! ## Matches in a document -/

/-- From a document where no helper is open, the match gives this text and changes nothing. -/
def Gives (t : MatchTree) (parts : SharedEffect → List Part) (overview : Bool) (s : Shape) :
    Prop :=
  ∀ d : Document, d.gathered.inHelper = false →
    (Environment.evaluateShape t overview s : Session Document Text).run.run d =
      (.ok (s.substituted parts overview), d)

variable {t : MatchTree} {parts : SharedEffect → List Part} {overview : Bool}

theorem gives_all {ss : List Shape} (h : ∀ s ∈ ss, Gives t parts overview s)
    (hd : d.gathered.inHelper = false) :
    (Environment.evaluateShapes t overview ss : Session Document (List Text)).run.run d =
      (.ok (Shape.substitutedAll parts overview ss), d) := by
  induction ss with
  | nil => rfl
  | cons s ss ih =>
    have hfirst := h s List.mem_cons_self d hd
    have hrest := ih fun s hs => h s (List.mem_cons_of_mem _ hs)
    unfold Environment.evaluateShapes
    refine (run_bind_ok _ (congrArg Prod.fst hfirst)).trans ?_
    unfold final
    rw [hfirst]
    refine (run_bind_ok _ (congrArg Prod.fst hrest)).trans ?_
    unfold final
    rw [hrest]
    rfl

theorem gives_application (hwritten : ∀ e, t.Mentions e → e.effect.IsWrittenAs (parts e))
    {n : NodeId} {a : Application} (happlies : t.Applies n a) {ss : List Shape}
    (harity : ss.length = a.effect.effect.parameters.length)
    (h : ∀ s ∈ ss, Gives t parts overview s) : Gives t parts overview (.application n a ss) := by
  intro d hd
  have hall := gives_all h hd
  have hlength : (Shape.substitutedAll parts overview ss).length =
      a.effect.effect.parameters.length := by
    rw [Shape.substitutedAll_eq_map, List.length_map, harity]
  have heffect := run_evaluateAfresh hd happlies (hwritten a.effect ⟨n, a, happlies, rfl⟩) hlength
  unfold Environment.evaluateShape Shape.substituted
  refine (run_bind_ok _ (congrArg Prod.fst hall)).trans ?_
  unfold final
  rw [hall]
  exact heffect

theorem exists_gives (ht : t.WellFormed)
    (hwritten : ∀ e, t.Mentions e → e.effect.IsWrittenAs (parts e)) {n : NodeId}
    (hn : n < t.size) (overview : Bool) :
    ∃ s, t.shape? n = some s ∧ Gives t parts overview s := by
  refine ht.exists_shape (motive := fun _ s => Gives t parts overview s) (fun n a _ d _ => ?_)
    (fun n a ss happlies hchildren => ?_) hn
  · unfold Environment.evaluateShape Shape.substituted
    rw [← a.value_eq]
    rfl
  · refine gives_application hwritten happlies ?_ fun s hs => ?_
    · rw [← ht.arity n a happlies, hchildren.length_eq]
    · obtain ⟨i, hi, rfl⟩ := List.getElem_of_mem hs
      exact (hchildren.get (hchildren.length_eq ▸ hi) hi).2

end Document

/-- In a new session over any document, and in both modes, the evaluation at each node succeeds,
gives what the recursion over the match gives, and leaves a document where nothing is gathered. -/
theorem evaluation_substitutes {steps : List MatchTree.Step} {parts : SharedEffect → List Part}
    (hwritten : ∀ e, (MatchTree.build steps).Mentions e → e.effect.IsWrittenAs (parts e))
    (hcoherent : Coherent (MatchTree.build steps).Mentions) {n : NodeId}
    (hn : n < (MatchTree.build steps).size) (overview : Bool) (d : Document) :
    let t := MatchTree.build steps
    let x : Session (Synthesizer Document) Text := Environment.evaluate t n overview
    ∃ s, t.shape? n = some s ∧
      outcome x { evaluator := d } = .ok (s.substituted parts overview) ∧
      (final x { evaluator := d }).evaluator = { d with gathered := {} } := by
  intro t x
  obtain ⟨s, hs, hgives⟩ :=
    Document.exists_gives (MatchTree.wellFormed_build steps) hwritten hn overview
  have hshape : t.shape n = .ok s := by
    unfold MatchTree.shape
    rw [hs]
  have hnew : Synthesizer.Caches t.Mentions { evaluator := d } := fun _ hentry => nomatch hentry
  obtain ⟨hout, hfinal, -⟩ :=
    Synthesizer.evaluate_eq_document hcoherent (fun _ he => he) hnew n overview
  have hrun : (Environment.evaluate t n overview : Session Document Text).run.run d =
      (.ok (s.substituted parts overview), { d with gathered := {} }) := by
    unfold Environment.evaluate
    rw [hshape]
    exact hgives d.forget rfl
  exact ⟨s, hs, hout.trans (congrArg Prod.fst hrun), hfinal.trans (congrArg Prod.snd hrun)⟩

/-- A parameter with the name of a formula, and a text that ends with a `$` and one with a brace. -/
def callParts : List Part :=
  [.text "f($".toList, .reference "cursor".toList, .text "\x7d) ".toList]

def callEffect : SharedEffect :=
  ⟨0, { id := ['e'], parameters := [{ name := "cursor".toList }]
        code := "f($$$\x7bcursor\x7d\x7d) ".toList }⟩

/-- The call of the call of an argument whose text looks like a template. -/
def callSteps : List MatchTree.Step :=
  [.addArgument { text := some "$\x7bcursor\x7d$$".toList }, .addEffect callEffect [] [0],
    .addEffect callEffect [] [1]]

theorem eq_callEffect_of_mentions {e : SharedEffect}
    (h : (MatchTree.build callSteps).Mentions e) : e = callEffect := by
  have heffects : (MatchTree.build callSteps).effects = [callEffect, callEffect] := by
    decide +kernel
  have hmem := MatchTree.mem_effects h
  rw [heffects] at hmem
  simpa using hmem

theorem typed_templates_come_out_as_typed :
    let t := MatchTree.build callSteps
    let d := Document.ofText "x".toList {}
    let x : Session (Synthesizer Document) Text := Environment.evaluate t 3 true
    (∀ e, t.Mentions e → e.effect.IsWrittenAs callParts) ∧ Coherent t.Mentions ∧ 3 < t.size ∧
      outcome x { evaluator := d } = .ok "f($f($$$\x7bcursor\x7d$$\x7d)\x7d)".toList ∧
      (final x { evaluator := d }).evaluator = d := by
  intro t d x
  have hwritten : ∀ e, t.Mentions e → e.effect.IsWrittenAs callParts := by
    intro e he
    rw [eq_callEffect_of_mentions he]
    exact ⟨by decide, by decide, by decide, by simp [callParts, callEffect]⟩
  have hcoherent : Coherent t.Mentions := by
    intro e f he hf _
    rw [eq_callEffect_of_mentions he, eq_callEffect_of_mentions hf]
  have hsize : 3 < t.size := by decide +kernel
  obtain ⟨s, hs, hout, hfinal⟩ := evaluation_substitutes hwritten hcoherent hsize true d
  have htext : (t.shape? 3).map (·.substituted (fun _ => callParts) true) =
      some "f($f($$$\x7bcursor\x7d$$\x7d)\x7d)".toList := by decide +kernel
  have hs' : t.shape? 3 = some s := hs
  rw [hs', Option.map_some] at htext
  refine ⟨hwritten, hcoherent, hsize, hout.trans ?_, hfinal⟩
  exact congrArg Except.ok (Option.some.inj htext)

end SnippetEngine
