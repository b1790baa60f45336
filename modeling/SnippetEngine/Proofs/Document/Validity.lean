-- Valid matches. A match is valid if each match in it that is bound to an expression of some type
-- has a type that fits there. So nothing but the applications and the settings count, the parts of
-- a valid match are valid, and a match stays valid when the settings let more types fit.
import SnippetEngine.Proofs.Compatibility
import SnippetEngine.Proofs.Document.EqualMatches
import SnippetEngine.Proofs.Match.Copying
import SnippetEngine.Proofs.Session.History

namespace SnippetEngine

open Session

/-! ## Matches that fit -/

/-- Each match that the application binds to an expression of some type has a type, and it fits. -/
def Compatibility.Admits (table : Compatibility) (t : MatchTree) (a : Application) : Prop :=
  ∀ (i : Nat) (c : NodeId) (b : Application) (p : Parameter), a.children[i]? = some c →
    t.Applies c b → a.effect.effect.parameters[i]? = some p → p.majorType = Document.expression →
    p.minorType ≠ [] → b.effect.effect.minorType ≠ [] ∧
      table.isCompatible p.minorType b.effect.effect.minorType = true

/-- This is so for each application that can be reached from the node along children. -/
def Compatibility.AdmitsBelow (table : Compatibility) (t : MatchTree) (n : NodeId) : Prop :=
  ∀ p a, t.IsBelow p n → t.Applies p a → table.Admits t a

namespace Compatibility

variable {table table' : Compatibility} {t u : MatchTree} {m n : NodeId}

theorem admitsBelow_of_argument? {b : Argument} (h : t.argument? n = .ok (some b)) :
    table.AdmitsBelow t n := by
  intro p a hp happlies
  rcases MatchTree.isBelow_iff.mp hp with rfl | ⟨b, hb, -⟩
  · exact absurd happlies (MatchTree.not_applies_of_argument? h a)
  · exact absurd hb (MatchTree.not_applies_of_argument? h b)

theorem admitsBelow_application {a : Application} (happlies : t.Applies n a) :
    table.AdmitsBelow t n ↔ (∀ c ∈ a.children, table.AdmitsBelow t c) ∧ table.Admits t a := by
  constructor
  · intro h
    exact ⟨fun c hc p b hp => h p b (hp.tail ⟨a, happlies, hc⟩), h n a .refl happlies⟩
  · rintro ⟨hchildren, ha⟩ p b hp hb
    rcases MatchTree.isBelow_iff.mp hp with rfl | ⟨a', ha', c, hc, hpc⟩
    · rw [hb.unique happlies]
      exact ha
    · rw [ha'.unique happlies] at hc
      exact hchildren c hc p b hpc hb

/-- The parts of a match are admitted with it. -/
theorem AdmitsBelow.of_isBelow (h : table.AdmitsBelow t n) (hm : t.IsBelow m n) :
    table.AdmitsBelow t m :=
  fun p a hp => h p a (hp.trans hm)

/-- A table by which more fits admits more. -/
theorem AdmitsBelow.mono (h : table.AdmitsBelow t n)
    (hmore : ∀ expected actual, table.isCompatible expected actual = true →
      table'.isCompatible expected actual = true) : table'.AdmitsBelow t n := by
  intro p a hp happlies i c b q hc hb hq hmajor hminor
  obtain ⟨htype, hfits⟩ := h p a hp happlies i c b q hc hb hq hmajor hminor
  exact ⟨htype, hmore _ _ hfits⟩

/-- Of a tree only the applications count. -/
theorem admitsBelow_congr (table : Compatibility) (n : NodeId)
    (h : ∀ p a, u.Applies p a ↔ t.Applies p a) :
    table.AdmitsBelow u n ↔ table.AdmitsBelow t n := by
  unfold AdmitsBelow Admits MatchTree.IsBelow MatchTree.IsChild
  simp only [h]

end Compatibility

namespace Document

variable {table : Compatibility} {t u : MatchTree} {n : NodeId}

theorem areValid_iff {ps : List Parameter} {ss : List Shape} :
    areValid table ps ss = true ↔ (∀ s ∈ ss, isValid table s = true) ∧
      ∀ (i : Nat) (s : Shape), ss[i]? = some s → fits table ps[i]? s = true := by
  induction ss generalizing ps with
  | nil => simp [areValid]
  | cons s ss ih =>
    have htail : ∀ i : Nat, ps.tail[i]? = ps[i + 1]? := fun i => by simp
    rw [areValid, Bool.and_eq_true, Bool.and_eq_true, ih, List.forall_mem_cons]
    simp only [htail]
    constructor
    · rintro ⟨⟨hvalid, hfits⟩, hvalids, hrest⟩
      refine ⟨⟨hvalid, hvalids⟩, fun i s' hs' => ?_⟩
      cases i with
      | zero =>
        cases hs'
        rw [← List.head?_eq_getElem?]
        exact hfits
      | succ i => exact hrest i s' hs'
    · rintro ⟨⟨hvalid, hvalids⟩, hfits⟩
      refine ⟨⟨hvalid, ?_⟩, hvalids, fun i s' hs' => hfits (i + 1) s' hs'⟩
      rw [List.head?_eq_getElem?]
      exact hfits 0 s rfl

theorem fits_application_iff {c : NodeId} {b : Application} {ss : List Shape} {p : Parameter} :
    fits table (some p) (.application c b ss) = true ↔
      (p.majorType = expression → p.minorType ≠ [] → b.effect.effect.minorType ≠ [] ∧
        table.isCompatible p.minorType b.effect.effect.minorType = true) := by
  by_cases hmajor : p.majorType = expression
  · by_cases hminor : p.minorType = []
    · simp [fits, hminor]
    · simp [fits, hmajor, hminor]
  · simp [fits, hmajor]

/-- What is bound fits if the application admits it. Arguments always fit. -/
theorem areFitting_iff (ht : t.WellFormed) {a : Application} {ss : List Shape}
    (hss : List.Forall₂ (fun c s => t.shape? c = some s) a.children ss) :
    (∀ (i : Nat) (s : Shape), ss[i]? = some s →
      fits table a.effect.effect.parameters[i]? s = true) ↔ table.Admits t a := by
  constructor
  · intro hfits i c b p hc hb hp hmajor hminor
    obtain ⟨s, hs, hshape⟩ := MatchTree.exists_getElem?_of_forall₂ hss hc
    obtain ⟨parts, -, hshape'⟩ := ht.exists_shape_application hb
    cases hshape.symm.trans hshape'
    have hfit := hfits i _ hs
    rw [hp] at hfit
    exact fits_application_iff.mp hfit hmajor hminor
  · intro hadmits i s hs
    obtain ⟨c, hc, hshape⟩ := MatchTree.exists_getElem?_of_forall₂ hss.flip hs
    cases s with
    | argument m b => rfl
    | application m b parts =>
      obtain ⟨rfl, hb, -⟩ := ht.of_shape?_application hshape
      rcases hp : a.effect.effect.parameters[i]? with _ | p
      · rfl
      · exact fits_application_iff.mpr (hadmits i c b p hc hb hp)

/-- A match is valid if the applications in it admit what they bind. -/
theorem exists_isValid_iff (table : Compatibility) (ht : t.WellFormed) (hn : n < t.size) :
    ∃ s, t.shape? n = some s ∧ (isValid table s = true ↔ table.AdmitsBelow t n) := by
  refine ht.exists_shape (motive := fun n s => isValid table s = true ↔ table.AdmitsBelow t n)
    (fun n b hb => ?_) (fun n a ss happlies hss => ?_) hn
  · rw [isValid]
    exact iff_of_true rfl (Compatibility.admitsBelow_of_argument? hb)
  · rw [isValid, areValid_iff, areFitting_iff ht (hss.imp fun _ _ h => h.1),
      Compatibility.admitsBelow_application happlies]
    refine and_congr_left fun _ => ⟨fun hvalid c hc => ?_, fun hbelow s hs => ?_⟩
    · obtain ⟨s, hs, -, hiff⟩ := MatchTree.exists_left_of_forall₂ hss.flip hc
      exact hiff.mp (hvalid s hs)
    · obtain ⟨c, hc, -, hiff⟩ := MatchTree.exists_left_of_forall₂ hss hs
      exact hiff.mpr (hbelow c hc)

theorem exists_testMatch_iff (ht : t.WellFormed) (hn : n < t.size) (d : Document) :
    ∃ b, d.testMatch t n = .ok b ∧ (b = true ↔ d.compatibility.AdmitsBelow t n) := by
  obtain ⟨s, hs, hiff⟩ := exists_isValid_iff d.compatibility ht hn
  exact ⟨_, testMatch_of_shape? hs d, hiff⟩

theorem testMatch_eq_ok_true (ht : t.WellFormed) (hn : n < t.size) {d : Document} :
    d.testMatch t n = .ok true ↔ d.compatibility.AdmitsBelow t n := by
  obtain ⟨b, hb, hiff⟩ := exists_testMatch_iff ht hn d
  rw [hb, ← hiff]
  exact Except.ok.injEq b true ▸ Iff.rfl

/-- Documents with the same settings give the same answer. -/
theorem testMatch_of_config {d d' : Document} (h : d'.config = d.config) (t : MatchTree)
    (n : NodeId) : d'.testMatch t n = d.testMatch t n := by
  unfold testMatch compatibility
  rw [h]

/-- Steps that link no nodes do not change the answer. -/
theorem testMatch_of_sameLinks (ht : t.WellFormed) (hn : n < t.size) (h : t.SameLinks u)
    (d : Document) : d.testMatch u n = d.testMatch t n := by
  obtain ⟨b, hb, hiff⟩ := exists_testMatch_iff ht hn d
  obtain ⟨b', hb', hiff'⟩ := exists_testMatch_iff (ht.of_sameLinks h) (h.lt_size hn) d
  have hsame := Compatibility.admitsBelow_congr d.compatibility n h.applies_iff
  rw [hb, hb', Bool.eq_iff_iff.mpr (hiff'.trans (hsame.trans hiff.symm))]

/-- A copy can be made, and it is valid together with the original. -/
theorem exists_copy_testMatch (ht : t.WellFormed) (hn : n < t.size) (d : Document) :
    ∃ c u, (MatchTree.copyNode n).run.run t = (.ok c, u) ∧ d.testMatch u n = d.testMatch t n ∧
      d.testMatch u c = d.testMatch t n := by
  obtain ⟨s, hs, hcopy⟩ := ht.exists_run_copy hn
  obtain ⟨c, u, hrun, hcopied⟩ := hcopy t
  rw [← MatchTree.run_copyNode hs] at hrun
  have hu : u.WellFormed := (MatchTree.keeps_copyNode n).wellFormed ht hrun
  obtain ⟨s', hs', -⟩ := hu.exists_arguments (MatchTree.lt_size_of_parent hcopied.free)
  refine ⟨c, u, hrun, ?_, ?_⟩
  · rw [testMatch_of_shape? hs, testMatch_of_shape? ((hcopied.grown.shape? ht hn).trans hs)]
  · rw [testMatch_of_shape? hs, testMatch_of_shape? hs',
      isValid_congr (hcopied.mirrors.agrees ht hu s s' hs hs')]

end Document

/-- No operation changes the settings. -/
theorem Operation.config_after (history : List Operation) (s : Synthesizer Document) :
    (after history s).evaluator.config = s.evaluator.config := by
  rw [(touched_after history (.refl s.evaluator)).config]
  exact (edited_base_config history s.evaluator).2

/-! ## The law -/

/-- In every tree that can be built, a match is valid in a document exactly if each application in
it admits the matches that it binds. So the answer depends on nothing in the document but the
settings, which no operation changes, and on no text and no classification in the tree. A copy is
valid together with the original, the parts of a valid match are valid, and a match stays valid
under settings that have the same compatible types and more. -/
theorem valid_matches_fit_everywhere (steps : List MatchTree.Step) {n : NodeId}
    (hn : n < (MatchTree.build steps).size) (d : Document) :
    let t := MatchTree.build steps
    (∃ b, d.testMatch t n = .ok b ∧
      (b = true ↔ ∀ p a, t.IsBelow p n → t.Applies p a → d.compatibility.Admits t a)) ∧
    (∀ d' : Document, d'.config = d.config → d'.testMatch t n = d.testMatch t n) ∧
    (∀ (history : List Operation) (s : Synthesizer Document), s.evaluator = d →
      (Operation.after history s).evaluator.testMatch t n = d.testMatch t n) ∧
    (∀ edits : List MatchTree.Step, (∀ e ∈ edits, ∃ m, e.Edits m) →
      d.testMatch (edits.foldl MatchTree.perform t) n = d.testMatch t n) ∧
    (∃ c u, (MatchTree.copyNode n).run.run t = (.ok c, u) ∧ d.testMatch u n = d.testMatch t n ∧
      d.testMatch u c = d.testMatch t n) ∧
    (d.testMatch t n = .ok true → ∀ m, t.IsBelow m n → d.testMatch t m = .ok true) ∧
    ∀ d' : Document,
      (∀ expected types, (expected, types) ∈ d.config.compatible → ∀ ty ∈ types,
        ∃ types', (expected, types') ∈ d'.config.compatible ∧ ty ∈ types') →
      d.testMatch t n = .ok true → d'.testMatch t n = .ok true := by
  intro t
  have ht : t.WellFormed := MatchTree.wellFormed_build steps
  refine ⟨Document.exists_testMatch_iff ht hn d,
    fun d' hconfig => Document.testMatch_of_config hconfig t n, ?_, fun edits hedits => ?_,
    Document.exists_copy_testMatch ht hn d, fun hvalid m hm => ?_, fun d' hmore hvalid => ?_⟩
  · rintro history s rfl
    exact Document.testMatch_of_config (Operation.config_after history s) t n
  · exact Document.testMatch_of_sameLinks ht hn (MatchTree.sameLinks_foldl_perform hedits) d
  · have hbelow := (Document.testMatch_eq_ok_true ht hn).mp hvalid
    have hsize := ht.lt_size_of_isBelow hn hm
    exact (Document.testMatch_eq_ok_true ht hsize).mpr (hbelow.of_isBelow hm)
  · have hbelow := (Document.testMatch_eq_ok_true ht hn).mp hvalid
    refine (Document.testMatch_eq_ok_true ht hn).mpr (hbelow.mono fun e a hfits => ?_)
    exact Config.isCompatible_mono hmore hfits

def shapeType : Text := "Shape".toList

def circleType : Text := "Circle".toList

/-- A circle that is drawn, in a sequence. -/
def drawingSteps : List MatchTree.Step :=
  [.addEffect ⟨0, { id := ['c'], minorType := circleType }⟩ [] [],
    .addEffect ⟨1, { id := ['d'], parameters :=
      [{ name := ['s'], majorType := "expr".toList, minorType := shapeType }] }⟩ [] [0],
    .addEffect ⟨2, { id := ['q'], parameters := [{ name := ['t'], majorType := "stmt".toList }] }⟩
      [] [2]]

/-- The sequence is not valid for the circle deep in it, until the settings let a circle be a shape.
-/
theorem circle_has_to_be_a_shape :
    let t := MatchTree.build drawingSteps
    let plain := Document.ofText [] {}
    let d := Document.ofText [] { compatible := [(shapeType, [circleType])] }
    let wider := Document.ofText []
      { compatible := [([], [[]]), (shapeType, ["Square".toList, circleType])] }
    4 < t.size ∧ plain.testMatch t 4 = .ok false ∧ d.testMatch t 4 = .ok true ∧
      d.testMatch t 2 = .ok true ∧ wider.testMatch t 4 = .ok true ∧
      let edits := [.setArgument 3 (some ['a']), .setMatchType 2 .exact]
      d.testMatch (edits.foldl MatchTree.perform t) 4 = .ok true := by
  intro t plain d wider
  have hsize : 4 < t.size := by decide +kernel
  have hvalid : d.testMatch t 4 = .ok true := by decide +kernel
  obtain ⟨-, -, -, hedits, -, hparts, hmore⟩ := valid_matches_fit_everywhere drawingSteps hsize d
  have hbelow : 2 ∈ t.postorder 4 := by decide +kernel
  have hpart := ((MatchTree.wellFormed_build drawingSteps).mem_postorder.mp hbelow).2
  refine ⟨hsize, by decide +kernel, hvalid, hparts hvalid 2 hpart, hmore wider ?_ hvalid, ?_⟩
  · intro expected types hentry ty hty
    cases List.mem_singleton.mp hentry
    cases List.mem_singleton.mp hty
    exact ⟨_, List.mem_cons_of_mem _ List.mem_cons_self, List.mem_cons_of_mem _ List.mem_cons_self⟩
  · refine (hedits _ fun e he => ?_).trans hvalid
    rcases List.mem_pair.mp he with rfl | rfl
    · exact ⟨3, .text _⟩
    · exact ⟨2, .matchType _⟩

end SnippetEngine
