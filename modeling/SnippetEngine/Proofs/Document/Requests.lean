-- What stands in the gathered things at every moment of an evaluation. Formulas change them in a few
-- ways only: a helper is open once one was opened, and an import is asked for once, trimmed, and not
-- if it is empty.
import Mathlib.Data.List.Nodup
import SnippetEngine.Proofs.Document.Contributions
import SnippetEngine.Proofs.Session.Invariants

namespace SnippetEngine

open Session Text

/-! ## Gathered things -/

/-- Every import asked for is trimmed. -/
def Gathered.AsksTrimmed (g : Gathered) : Prop := ∀ name ∈ g.imports, trim name = name

structure Gathered.IsTidy (g : Gathered) : Prop where
  open_helper : g.inHelper = true → g.helpers ≠ []
  nodup_imports : g.imports.Nodup
  ne_nil : ∀ name ∈ g.imports, name ≠ []
  trimmed : g.AsksTrimmed

namespace Gathered

theorem isTidy_nil : IsTidy {} :=
  ⟨fun h => (nomatch h), List.nodup_nil, fun _ h => (nomatch h), fun _ h => nomatch h⟩

theorem Change.isTidy {g g' : Gathered} (h : g.Change g') (hg : g.IsTidy) : g'.IsTidy := by
  cases h with
  | nothing => exact hg
  | reserve => exact ⟨hg.open_helper, hg.nodup_imports, hg.ne_nil, hg.trimmed⟩
  | @request name htrimmed hne hnew =>
    refine ⟨hg.open_helper, ?_, ?_, ?_⟩
    · rw [← List.concat_eq_append]
      exact List.Nodup.concat hnew hg.nodup_imports
    · exact List.forall_mem_append.mpr ⟨hg.ne_nil, List.forall_mem_singleton.mpr hne⟩
    · exact List.forall_mem_append.mpr ⟨hg.trimmed, List.forall_mem_singleton.mpr htrimmed⟩
  | openHelper =>
    exact ⟨fun _ => List.append_ne_nil_of_right_ne_nil _ (List.cons_ne_nil _ _),
      hg.nodup_imports, hg.ne_nil, hg.trimmed⟩
  | closeHelper => exact ⟨fun h => (nomatch h), hg.nodup_imports, hg.ne_nil, hg.trimmed⟩

theorem IsTidy.addToLast {g : Gathered} (hg : g.IsTidy) (text : Text) :
    IsTidy { g with helpers := Document.addToLast text g.helpers } := by
  refine ⟨fun hin => ?_, hg.nodup_imports, hg.ne_nil, hg.trimmed⟩
  have hlast : ∀ hs : List Helper, hs ≠ [] → Document.addToLast text hs ≠ [] := by
    intro hs hne
    fun_cases Document.addToLast text hs with
    | case1 => exact hne
    | case2 => exact List.cons_ne_nil _ _
    | case3 => exact List.cons_ne_nil _ _
  exact hlast g.helpers (hg.open_helper hin)

/-- A property that formulas and the texts in helpers keep. -/
structure IsKept (I : Gathered → Prop) : Prop where
  change : ∀ {g g' : Gathered}, g.Change g' → I g → I g'
  addToLast : ∀ {g : Gathered} (text : Text), I g →
    I { g with helpers := Document.addToLast text g.helpers }

theorem isKept_true : IsKept fun _ => True := ⟨fun _ _ => trivial, fun _ _ => trivial⟩

theorem isKept_isTidy : IsKept IsTidy := ⟨Change.isTidy, fun text hg => hg.addToLast text⟩

end Gathered

/-! ## Pieces -/

namespace Document

/-- The document `d` with other gathered things, which have the property. -/
def Gathers (I : Gathered → Prop) (d e : Document) : Prop :=
  ∃ g : Gathered, e = { d with gathered := g } ∧ I g

variable {I : Gathered → Prop} {d : Document}

theorem ensures_emit_gathers (hI : Gathered.IsKept I) (text : Text) :
    Ensures (Gathers I d) (emit text) fun _ => True := by
  apply ensures_state
  rintro _ ⟨g, rfl, hg⟩
  rw [run_emit]
  refine ⟨?_, trivial⟩
  unfold receive
  split
  · exact ⟨_, rfl, hI.addToLast text hg⟩
  · exact ⟨g, rfl, hg⟩

theorem ensures_evaluateFormula_gathers (hI : Gathered.IsKept I) (site : Site) (scope : Bindings)
    (f : Formula) : Ensures (Gathers I d) (evaluateFormula site scope f) fun _ => True := by
  have hcomputed : Ensures (Gathers I d) (computed site scope f) fun _ => True := by
    apply ensures_state
    rintro _ ⟨g, rfl, hg⟩
    obtain ⟨g', hrun, hchange⟩ := changes_computed site scope f { d with gathered := g }
    rw [hrun]
    exact ⟨⟨g', rfl, hI.change hchange hg⟩, trivial⟩
  apply ensures_bind hcomputed
  exact fun text _ => ensures_emit_gathers hI text

end Document

/-! ## Matches -/

namespace Synthesizer

variable {I : Gathered → Prop}

/-- All that an evaluation does to the document is to gather. -/
theorem evaluate_gathers (hI : Gathered.IsKept I) (hnil : I {}) (t : MatchTree) (n : NodeId)
    (overview : Bool) (s : Synthesizer Document) :
    s.evaluator.Gathers I (final (Environment.evaluate t n overview) s).evaluator :=
  evaluate_keeps (Document.ensures_evaluateFormula_gathers hI)
    (fun _ _ => Document.ensures_emit_gathers hI) t n overview ⟨{}, rfl, hnil⟩

/-- The value of one application goes on gathering. -/
theorem evaluateEffect_gathers (hI : Gathered.IsKept I) (t : MatchTree) (n : NodeId)
    (values : List Text) {s : Synthesizer Document} (hs : I s.evaluator.gathered) :
    s.evaluator.Gathers I (final (evaluateEffect t n values) s).evaluator :=
  (evaluateEffect_keeps (Document.ensures_evaluateFormula_gathers hI)
    (fun _ _ => Document.ensures_emit_gathers hI) t n values s ⟨s.evaluator.gathered, rfl, hs⟩).1

/-- An evaluation asks for trimmed imports. -/
theorem Yields.asksTrimmed {t : MatchTree} {n : NodeId} {s : Synthesizer Document}
    {result before after : Text} {g : Gathered} (h : Yields t n s result g before after) :
    g.AsksTrimmed := by
  obtain ⟨g', hgathers, htidy⟩ :=
    evaluate_gathers Gathered.isKept_isTidy Gathered.isTidy_nil t n false s
  have hg : g = g' := congrArg (·.gathered) (h.gathers.symm.trans hgathers)
  rw [hg]
  exact htidy.trimmed

end Synthesizer

end SnippetEngine
