-- The code of a helper in an overview. An overview looks for it in the code as it is written,
-- between the first `${helper}` and the first `${endHelper}` that the characters spell. The compiled
-- code knows better: it has formulas that are written with blanks, texts that read like a formula,
-- and formulas that close nothing. Where none of these is in the way, an overview shows the source
-- between the formulas that open and close the helper.
import SnippetEngine.Proofs.Session.Operations
import SnippetEngine.Proofs.Session.Transcript
import SnippetEngine.Proofs.Template.Delimiters
import SnippetEngine.Proofs.Template.RoundTrip

namespace SnippetEngine

open Session Text

/-- The formula that opens a helper. -/
def helperName : Text := "helper".toList

/-- The formula that closes the helper. -/
def endHelperName : Text := "endHelper".toList

theorem helperName_ne : helperName ≠ endHelperName := by decide

theorem isIdentifier_helperName : isIdentifier helperName = true := by decide

theorem isIdentifier_endHelperName : isIdentifier endHelperName = true := by decide

theorem parse_helperName : Formula.parse helperName = .ok ⟨helperName, [], none⟩ := by
  decide +kernel

theorem parse_endHelperName : Formula.parse endHelperName = .ok ⟨endHelperName, [], none⟩ := by
  decide +kernel

/-! ## Sections -/

namespace Segment

/-- The segment is a formula of that name without arguments, whatever variable keeps its value. -/
def Calls (name : Text) : Segment → Prop
  | text _ => False
  | formula body _ => ∃ f, Formula.parse body = .ok f ∧ f.name = name ∧ f.arguments = []

/-- The segment reads like a formula that opens or closes a helper exactly if it is one. -/
def IsPlain (s : Segment) : Prop :=
  ∀ name ∈ [helperName, endHelperName], (s.Calls name ↔ s.Spells name)

theorem isPlain_text {t : Text} (h : '$' ∉ t) : (text t).IsPlain := by
  intro name _
  refine iff_of_false id fun hspells => h ?_
  have hmem : '$' ∈ formulaSource name := List.mem_cons_self
  exact hspells.subset hmem

/-- A formula that is its own name. -/
theorem isPlain_formula {body : Text} {capture : Option Text}
    (h : Formula.parse body = .ok ⟨body, [], capture⟩) (offset : Nat) :
    (formula body offset).IsPlain := by
  intro name _
  refine ⟨fun ⟨f, hf, hname, _⟩ => ?_, fun hspells => ⟨_, h, hspells, rfl⟩⟩
  cases h.symm.trans hf
  exact hname

end Segment

/-- The first formula that opens a helper, and the next one behind it that closes it. -/
structure HelperSection (segments : List Segment) where
  before : List Segment
  /-- The body of the formula that opens the helper, and the byte it begins at. -/
  opening : Text
  start : Nat
  inside : List Segment
  /-- The body of the formula that closes it, and the byte it begins at. -/
  closing : Text
  stop : Nat
  behind : List Segment
  split : segments = before ++ .formula opening start :: (inside ++ .formula closing stop :: behind)
  first : ∀ s ∈ before, ¬ s.Calls helperName
  opens : Segment.Calls helperName (.formula opening start)
  next : ∀ s ∈ inside, ¬ s.Calls endHelperName
  closes : Segment.Calls endHelperName (.formula closing stop)

namespace HelperSection

variable {code : Text} {segments : List Segment}

/-- The source between the two formulas. -/
def source? (h : HelperSection (Segment.scan code)) : Option Text :=
  code.slice? (h.start + h.opening.byteSize + 3) h.stop

theorem opening_mem (h : HelperSection segments) : .formula h.opening h.start ∈ segments := by
  rcases h with ⟨before, opening, start, inside, closing, stop, behind, rfl, -, -, -, -⟩
  simp

theorem exists_source? (h : HelperSection (Segment.scan code)) :
    ∃ u, h.source? = some u ∧ h.stop = h.start + h.opening.byteSize + 3 + u.byteSize ∧
      (u = [] ↔ h.inside = []) :=
  Segment.exists_slice? h.split

/-- There is one first formula that opens a helper. -/
theorem before_eq (h k : HelperSection segments) : h.before = k.before := by
  have hsplit := h.split.symm.trans k.split
  rcases List.append_eq_append_iff.mp hsplit with ⟨w, hw, hrest⟩ | ⟨w, hw, hrest⟩
  · rcases w with _ | ⟨s, w⟩
    · simpa using hw.symm
    · obtain ⟨rfl, -⟩ := List.cons.inj hrest
      exact absurd h.opens (k.first _ (by simp [hw]))
  · rcases w with _ | ⟨s, w⟩
    · simpa using hw
    · obtain ⟨rfl, -⟩ := List.cons.inj hrest
      exact absurd k.opens (h.first _ (by simp [hw]))

end HelperSection

/-! ## Looking for the section -/

namespace Document

/-- The places of the texts between which the code of a helper is looked for. -/
def helperPlaces? (code : Text) : Option (Nat × Nat) := do
  let start ← offsetOf? (Segment.formulaSource helperName) code
  let stop ← offsetOf? (Segment.formulaSource endHelperName) code
  if start + (Segment.formulaSource helperName).byteSize < stop then some (start, stop) else none

theorem helperPlaces?_eq_some {code : Text} {start stop : Nat} :
    helperPlaces? code = some (start, stop) ↔
      offsetOf? (Segment.formulaSource helperName) code = some start ∧
        offsetOf? (Segment.formulaSource endHelperName) code = some stop ∧
        start + (Segment.formulaSource helperName).byteSize < stop := by
  unfold helperPlaces?
  rcases offsetOf? (Segment.formulaSource helperName) code with _ | i
  · simp
  · rcases offsetOf? (Segment.formulaSource endHelperName) code with _ | j
    · simp
    · simp only [Option.bind_eq_bind, Option.bind_some, Option.some.injEq]
      constructor
      · intro h
        split at h
        next hlt =>
          cases h
          exact ⟨rfl, rfl, hlt⟩
        next => cases h
      · rintro ⟨rfl, rfl, hlt⟩
        rw [if_pos hlt]

/-- What is found is the slice of the code between these places. -/
theorem helperSection?_eq (code : Text) :
    helperSection? code = (helperPlaces? code).bind fun places =>
      code.slice? (places.1 + (Segment.formulaSource helperName).byteSize) places.2 := by
  have hhelper : "$\x7bhelper\x7d".toList = Segment.formulaSource helperName := rfl
  have hendHelper : "$\x7bendHelper\x7d".toList = Segment.formulaSource endHelperName := rfl
  unfold helperSection? helperPlaces? offsetOf?
  rw [hhelper, hendHelper]
  dsimp only
  generalize Segment.formulaSource helperName = opening
  generalize Segment.formulaSource endHelperName = closing
  rcases hopening : cutAround? opening code with _ | ⟨before, after⟩
  · rfl
  rcases hclosing : cutAround? closing code with _ | ⟨front, behind⟩
  · rfl
  have hbefore : before ++ opening <+: code := ⟨after, (eq_of_cutAround? hopening).symm⟩
  have hfront : front <+: code := by
    rw [eq_of_cutAround? hclosing, List.append_assoc]
    exact List.prefix_append front _
  have hlt := byteSize_lt_iff hbefore hfront
  rw [List.length_append, byteSize_append] at hlt
  by_cases horder : before.length + opening.length < front.length
  · have hprefix := List.prefix_of_prefix_length_le hbefore hfront (by simpa using horder.le)
    have hslice := slice?_of_prefix hprefix hfront
    rw [List.length_append, byteSize_append] at hslice
    simp [horder, hlt.mpr horder, hslice]
  · simp [horder, mt hlt.mp horder]

/-- An overview shows the source between the formulas that open and close a helper, and nothing
where there is no such source. -/
def ReadsAsParsed (code : Text) : Prop :=
  ∀ text, helperSection? code = some text ↔
    ∃ h : HelperSection (Segment.scan code), h.source? = some text ∧ text ≠ []

section

variable {code : Text} (hparses : ∀ s ∈ Segment.scan code, s.Parses)
include hparses

/-- The search stops at the formulas that open and close a helper exactly if something is between
them, they are written without blanks, and nothing in front of them reads the same. -/
theorem helperPlaces?_eq_iff (h : HelperSection (Segment.scan code)) :
    helperPlaces? code = some (h.start, h.stop) ↔
      h.inside ≠ [] ∧ h.opening = helperName ∧ h.closing = endHelperName ∧
        (∀ s ∈ h.before, ¬ s.Spells helperName) ∧
        ∀ s ∈ h.before ++ .formula h.opening h.start :: h.inside, ¬ s.Spells endHelperName := by
  have hclosing : Segment.scan code = (h.before ++ .formula h.opening h.start :: h.inside) ++
      .formula h.closing h.stop :: h.behind := by
    rw [List.append_assoc]
    exact h.split
  obtain ⟨u, -, hstop, hu⟩ := h.exists_source?
  rw [helperPlaces?_eq_some, Segment.offsetOf?_eq_iff hparses isIdentifier_helperName h.split,
    Segment.offsetOf?_eq_iff hparses isIdentifier_endHelperName hclosing,
    Segment.byteSize_formulaSource]
  have horder : h.opening = helperName →
      (h.start + (helperName.byteSize + 3) < h.stop ↔ h.inside ≠ []) := by
    intro hopening
    rw [hstop, hopening, ne_eq, ← hu]
    constructor
    · rintro hlt rfl
      rw [byteSize_nil] at hlt
      omega
    · intro hne
      have hsize := mt byteSize_eq_zero hne
      omega
  constructor
  · rintro ⟨⟨hopening, hfirst⟩, ⟨hclosing, hfront⟩, hlt⟩
    exact ⟨(horder hopening).mp hlt, hopening, hclosing, hfirst, hfront⟩
  · rintro ⟨hinside, hopening, hclosing, hfirst, hfront⟩
    exact ⟨⟨hopening, hfirst⟩, ⟨hclosing, hfront⟩, (horder hopening).mpr hinside⟩

variable (hplain : ∀ s ∈ Segment.scan code, s.IsPlain)
include hplain

/-- Where a section is found in plain code, formulas open and close it, and none in front of them
closes one. -/
theorem exists_section_of_helperPlaces? {start stop : Nat}
    (h : helperPlaces? code = some (start, stop)) :
    ∃ k : HelperSection (Segment.scan code), k.start = start ∧ k.stop = stop ∧
      k.opening = helperName ∧ k.inside ≠ [] ∧ ∀ s ∈ k.before, ¬ s.Calls endHelperName := by
  obtain ⟨hopening, hclosing, hlt⟩ := helperPlaces?_eq_some.mp h
  rw [Segment.byteSize_formulaSource] at hlt
  have htexts : ∀ name ∈ [helperName, endHelperName], ∀ t, .text t ∈ Segment.scan code →
      ¬ (Segment.text t).Spells name := fun name hname t ht => (hplain _ ht name hname).mpr
  obtain ⟨before, post, hscan, hfirst⟩ := Segment.exists_formula_of_offsetOf? hparses
    isIdentifier_helperName hopening (htexts _ (by simp))
  obtain ⟨front, behind, hscan', hfront⟩ := Segment.exists_formula_of_offsetOf? hparses
    isIdentifier_endHelperName hclosing (htexts _ (by simp))
  obtain ⟨inside, rfl⟩ := Segment.exists_between hscan hscan' (by omega)
  have hsplit : Segment.scan code = before ++ .formula helperName start ::
      (inside ++ .formula endHelperName stop :: behind) := by
    rw [hscan', List.append_assoc, List.cons_append]
  obtain ⟨u, -, hstop, hu⟩ := Segment.exists_slice? hsplit
  have hinside : inside ≠ [] := by
    rintro rfl
    rw [hu.mpr rfl, byteSize_nil] at hstop
    omega
  -- nothing in front of the formula that closes reads like one, so nothing there is one
  have hmem : ∀ s ∈ before ++ .formula helperName start :: inside, s ∈ Segment.scan code :=
    fun s hs => hscan' ▸ List.mem_append_left _ hs
  have hnone : ∀ s ∈ before ++ .formula helperName start :: inside, ¬ s.Calls endHelperName :=
    fun s hs => mt (hplain s (hmem s hs) _ (by simp)).mp (hfront s hs)
  refine ⟨{ before, opening := helperName, start, inside, closing := endHelperName, stop, behind
            split := hsplit
            first := fun s hs =>
              mt (hplain s (hmem s (by simp [hs])) _ (by simp)).mp (hfirst s hs)
            opens := ⟨_, parse_helperName, rfl, rfl⟩
            next := fun s hs => hnone s (by simp [hs])
            closes := ⟨_, parse_endHelperName, rfl, rfl⟩ },
    rfl, rfl, rfl, hinside, fun s hs => hnone s (by simp [hs])⟩

theorem helperPlaces?_of_section {k : HelperSection (Segment.scan code)} (hinside : k.inside ≠ [])
    (hnone : ∀ s ∈ k.before, ¬ s.Calls endHelperName) :
    k.opening = helperName ∧ helperPlaces? code = some (k.start, k.stop) := by
  have hmem : ∀ s ∈ k.before ++ .formula k.opening k.start :: (k.inside ++
      [.formula k.closing k.stop]), s ∈ Segment.scan code := by
    intro s hs
    rw [k.split]
    simp only [List.mem_append, List.mem_cons, List.not_mem_nil, or_false] at hs ⊢
    tauto
  have hspells : ∀ name ∈ [helperName, endHelperName], ∀ s ∈ Segment.scan code,
      ¬ s.Calls name → ¬ s.Spells name := fun name hname s hs => mt (hplain s hs name hname).mpr
  have hopening : k.opening = helperName :=
    (hplain _ (hmem _ (by simp)) _ (by simp)).mp k.opens
  have hclosing : k.closing = endHelperName :=
    (hplain _ (hmem _ (by simp)) _ (by simp)).mp k.closes
  refine ⟨hopening, (helperPlaces?_eq_iff hparses k).mpr
    ⟨hinside, hopening, hclosing, fun s hs => ?_, fun s hs => ?_⟩⟩
  · exact hspells _ (by simp) s (hmem s (by simp [hs])) (k.first s hs)
  · rcases List.mem_append.mp hs with hbefore | hrest
    · exact hspells _ (by simp) s (hmem s (by simp [hbefore])) (hnone s hbefore)
    · rcases List.mem_cons.mp hrest with rfl | hin
      · exact fun h => helperName_ne (hopening.symm.trans h)
      · exact hspells _ (by simp) s (hmem s (by simp [hin])) (k.next s hin)

/-- In plain code an overview is wrong about the section only if a formula in front of it closes
something. -/
theorem readsAsParsed_iff : ReadsAsParsed code ↔
    ∀ k : HelperSection (Segment.scan code), k.inside ≠ [] →
      ∀ s ∈ k.before, ¬ s.Calls endHelperName := by
  constructor
  · intro hreads k hinside s hs hcloses
    obtain ⟨u, hu, -, hempty⟩ := k.exists_source?
    have hshown := (hreads u).mpr ⟨k, hu, mt hempty.mp hinside⟩
    rw [helperSection?_eq] at hshown
    obtain ⟨places, hplaces, -⟩ := Option.bind_eq_some_iff.mp hshown
    obtain ⟨l, -, -, -, -, hnone⟩ := exists_section_of_helperPlaces? hparses hplain hplaces
    exact hnone s (k.before_eq l ▸ hs) hcloses
  · intro hnone text
    rw [helperSection?_eq]
    constructor
    · intro hshown
      obtain ⟨places, hplaces, hslice⟩ := Option.bind_eq_some_iff.mp hshown
      obtain ⟨k, hstart, hstop, hopening, hinside, -⟩ :=
        exists_section_of_helperPlaces? hparses hplain hplaces
      obtain ⟨u, hu, -, hempty⟩ := k.exists_source?
      rw [← hstart, ← hstop, ← hopening, Segment.byteSize_formulaSource, ← Nat.add_assoc] at hslice
      cases hu.symm.trans hslice
      exact ⟨k, hu, mt hempty.mp hinside⟩
    · rintro ⟨k, hu, hne⟩
      obtain ⟨v, hv, -, hempty⟩ := k.exists_source?
      cases hu.symm.trans hv
      have hinside := mt hempty.mpr hne
      obtain ⟨hopening, hplaces⟩ :=
        helperPlaces?_of_section hparses hplain hinside (hnone k hinside)
      rw [hplaces, Option.bind_some, Segment.byteSize_formulaSource, ← Nat.add_assoc, ← hopening]
      exact hu

end

/-- An overview is the value without cursor markers, and behind it what is found of the helper. -/
theorem outcome_overview {t : MatchTree} {n : NodeId} {a : Application} (h : t.Applies n a)
    (s : Synthesizer Document) :
    outcome (overview t n) s = (outcome (Environment.evaluate t n true) s).map fun value =>
      replaceAll s.evaluator.config.cursorMarker [] value ++ helperNote (some a) := by
  obtain ⟨g, hdocument, -⟩ :=
    Synthesizer.evaluate_gathers Gathered.isKept_true trivial t n true s
  have hconfig : (final (Environment.evaluate t n true) s).evaluator.config =
      s.evaluator.config := by
    rw [hdocument]
  unfold overview
  rw [outcome_observing_bind, ← hconfig]
  rcases outcome (Environment.evaluate t n true) s with e | value
  · rfl
  · simp only [MatchTree.application?_eq_some.mpr h]
    rfl

end Document

theorem Segment.parses_of_compile {e : SharedEffect} {snippet : Snippet}
    (h : Snippet.compile e = .ok snippet) : ∀ s ∈ scan e.effect.code, s.Parses := by
  obtain ⟨pieces, hpieces, -⟩ := Snippet.compile_eq_ok.mp h
  unfold Snippet.piecesOf at hpieces
  generalize scan e.effect.code = segments at hpieces
  induction segments generalizing pieces with
  | nil => simp
  | cons s segments ih =>
    obtain ⟨p, ps, hp, hps, rfl⟩ := mapM_cons_eq_ok.mp hpieces
    refine List.forall_mem_cons.mpr ⟨?_, ih ps hps⟩
    cases s with
    | text t => trivial
    | formula body offset =>
      obtain ⟨f, hf, -⟩ := Snippet.of_pieceOf_formula hp
      exact ⟨f, hf⟩

/-- An overview of an application shows the value and, behind it, the code of a helper, which is
looked for in the characters. What is found is the section that the compiled code opens first
exactly if there is something in it, its formulas are written without blanks, and nothing in front
of them reads like one of them. So in code whose formulas and texts read as what they are, an
overview shows the section, or none, as the compiled code has it, unless a formula closes something
in front of a section. -/
theorem overviews_look_for_helpers_in_the_characters {t : MatchTree} {n : NodeId} {a : Application}
    (happlies : t.Applies n a) {snippet : Snippet}
    (hcompiles : Snippet.compile a.effect = .ok snippet) :
    let code := a.effect.effect.code
    (∀ s : Synthesizer Document,
      outcome (Document.overview t n) s =
        (outcome (Environment.evaluate t n true) s).map fun value =>
          replaceAll s.evaluator.config.cursorMarker [] value ++
            ((Document.helperSection? code).map ("\r\n Helper Classes:\r\n".toList ++ ·)).getD []) ∧
    (Document.helperSection? code = (Document.helperPlaces? code).bind fun places =>
      code.slice? (places.1 + (Segment.formulaSource helperName).byteSize) places.2) ∧
    (∀ h : HelperSection (Segment.scan code),
      (∃ u, h.source? = some u ∧ (u = [] ↔ h.inside = [])) ∧
      (Document.helperPlaces? code = some (h.start, h.stop) ↔
        h.inside ≠ [] ∧ h.opening = helperName ∧ h.closing = endHelperName ∧
          (∀ s ∈ h.before, ¬ s.Spells helperName) ∧
          ∀ s ∈ h.before ++ .formula h.opening h.start :: h.inside, ¬ s.Spells endHelperName)) ∧
    ((∀ s ∈ Segment.scan code, s.IsPlain) →
      (Document.ReadsAsParsed code ↔ ∀ h : HelperSection (Segment.scan code), h.inside ≠ [] →
        ∀ s ∈ h.before, ¬ s.Calls endHelperName)) := by
  intro code
  have hparses := Segment.parses_of_compile hcompiles
  refine ⟨fun s => ?_, Document.helperSection?_eq code, fun h => ⟨?_, ?_⟩, fun hplain => ?_⟩
  · rw [Document.outcome_overview happlies s]
    unfold Document.helperNote
    rw [Option.bind_some]
    rcases Document.helperSection? code with _ | text
    · rfl
    · rfl
  · obtain ⟨u, hu, -, hempty⟩ := h.exists_source?
    exact ⟨u, hu, hempty⟩
  · exact Document.helperPlaces?_eq_iff hparses h
  · exact Document.readsAsParsed_iff hparses hplain

/-- The match of an effect with this code. -/
def matchWithCode (code : Text) : MatchTree := Operation.matchOf ⟨0, { id := ['e'], code }⟩

/-- An application of an effect with this code. -/
def applicationOf (code : Text) : Application := ⟨⟨0, { id := ['e'], code }⟩, [], [], 1⟩

theorem applies_matchWithCode (code : Text) :
    (matchWithCode code).Applies 0 (applicationOf code) :=
  MatchTree.application?_eq_some.mp rfl

/-- An effect with a helper in front. -/
def helperFirst : Text := "$\x7bhelper\x7dclass X$\x7bendHelper\x7dnew X()".toList

theorem scan_helperFirst : Segment.scan helperFirst =
    [.formula helperName 0, .text "class X".toList, .formula endHelperName 16,
      .text "new X()".toList] := by
  decide +kernel

/-- The section of that effect, which is all in front of its last text. -/
def helperFirstSection : HelperSection (Segment.scan helperFirst) where
  before := []
  opening := helperName
  start := 0
  inside := [.text "class X".toList]
  closing := endHelperName
  stop := 16
  behind := [.text "new X()".toList]
  split := scan_helperFirst
  first := by simp
  opens := ⟨_, parse_helperName, rfl, rfl⟩
  next := by simp [Segment.Calls]
  closes := ⟨_, parse_endHelperName, rfl, rfl⟩

/-- The formulas and texts of that effect read as what they are, and nothing stands in front of the
helper. -/
theorem helper_in_front_is_shown :
    let s := Operation.opening [] {}
    (matchWithCode helperFirst).Applies 0 (applicationOf helperFirst) ∧
      (∃ snippet, Snippet.compile (applicationOf helperFirst).effect = .ok snippet) ∧
      outcome (Document.overview (matchWithCode helperFirst) 0) s =
        .ok "new X()\r\n Helper Classes:\r\nclass X".toList ∧
      Document.ReadsAsParsed helperFirst := by
  intro s
  have happlies := applies_matchWithCode helperFirst
  have hpieces : Snippet.piecesOf ['e'] helperFirst = .ok [.formula ⟨helperName, [], none⟩,
      .text "class X".toList, .formula ⟨endHelperName, [], none⟩, .text "new X()".toList] := by
    decide +kernel
  obtain ⟨snippet, hsnippet⟩ : ∃ snippet, Snippet.compile (applicationOf helperFirst).effect =
      .ok snippet := ⟨_, Snippet.compile_eq_ok.mpr ⟨_, hpieces, rfl⟩⟩
  obtain ⟨-, -, -, hreads⟩ := overviews_look_for_helpers_in_the_characters happlies hsnippet
  have hplain : ∀ s ∈ Segment.scan helperFirst, s.IsPlain := by
    rw [scan_helperFirst]
    simp only [List.forall_mem_cons, List.not_mem_nil, false_imp_iff, implies_true, and_true]
    exact ⟨Segment.isPlain_formula parse_helperName 0, Segment.isPlain_text (by decide),
      Segment.isPlain_formula parse_endHelperName 16, Segment.isPlain_text (by decide)⟩
  refine ⟨happlies, ⟨snippet, hsnippet⟩, by decide +kernel, (hreads hplain).mpr fun h _ s hs => ?_⟩
  rw [h.before_eq helperFirstSection] at hs
  cases hs

/-- A formula that closes nothing stands in front of the helper. -/
def closingFirst : Text :=
  "a$\x7bendHelper\x7db$\x7bhelper\x7dclass X$\x7bendHelper\x7d".toList

theorem scan_closingFirst : Segment.scan closingFirst =
    [.text ['a'], .formula endHelperName 1, .text ['b'], .formula helperName 14,
      .text "class X".toList, .formula endHelperName 30] := by
  decide +kernel

/-- The section behind that formula. -/
def closingFirstSection : HelperSection (Segment.scan closingFirst) where
  before := [.text ['a'], .formula endHelperName 1, .text ['b']]
  opening := helperName
  start := 14
  inside := [.text "class X".toList]
  closing := endHelperName
  stop := 30
  behind := []
  split := scan_closingFirst
  first := by
    simp only [List.forall_mem_cons, List.not_mem_nil, false_imp_iff, implies_true, and_true]
    refine ⟨id, fun ⟨f, hf, hname, _⟩ => ?_, id⟩
    cases parse_endHelperName.symm.trans hf
    exact helperName_ne hname.symm
  opens := ⟨_, parse_helperName, rfl, rfl⟩
  next := by simp [Segment.Calls]
  closes := ⟨_, parse_endHelperName, rfl, rfl⟩

/-- A text that reads like a helper. -/
def escapedHelper : Text := "$$\x7bhelper\x7dx$$\x7bendHelper\x7d".toList

/-- An overview leaves out the section behind a formula that closes nothing, and makes a section of
a text in which the `$` is escaped. -/
theorem overviews_miss_and_make_up_sections :
    let s := Operation.opening [] {}
    (outcome (Document.overview (matchWithCode closingFirst) 0) s = .ok "ab".toList ∧
      closingFirstSection.source? = some "class X".toList ∧
      ¬ Document.ReadsAsParsed closingFirst) ∧
    (outcome (Document.overview (matchWithCode escapedHelper) 0) s =
        .ok "$\x7bhelper\x7dx$\x7bendHelper\x7d\r\n Helper Classes:\r\nx$".toList ∧
      (HelperSection (Segment.scan escapedHelper) → False) ∧
      ¬ Document.ReadsAsParsed escapedHelper) := by
  intro s
  have hsource : closingFirstSection.source? = some "class X".toList := by decide +kernel
  have htext : Segment.scan escapedHelper =
      [.text "$\x7bhelper\x7dx$\x7bendHelper\x7d".toList] := by
    decide +kernel
  have hnone : HelperSection (Segment.scan escapedHelper) → False := by
    generalize Segment.scan escapedHelper = segments at htext
    subst htext
    intro h
    cases List.mem_singleton.mp h.opening_mem
  refine ⟨⟨by decide +kernel, hsource, fun hreads => ?_⟩, by decide +kernel, hnone,
    fun hreads => ?_⟩
  · have hmissed : Document.helperSection? closingFirst = none := by decide +kernel
    have hshown := (hreads _).mpr ⟨closingFirstSection, hsource, List.cons_ne_nil _ _⟩
    cases hmissed.symm.trans hshown
  · have hmade : Document.helperSection? escapedHelper = some "x$".toList := by decide +kernel
    obtain ⟨h, -⟩ := (hreads _).mp hmade
    exact hnone h

end SnippetEngine
