-- The states of a document. Whatever a session is asked to do, the base text and the settings stay,
-- the cursor stands at a place of the text, and the gathered things are tidy. A reset leaves a
-- document that answers like a new one with the same selection and the same declared variables.
import SnippetEngine.Proofs.Document.Helpers
import SnippetEngine.Proofs.Document.Requests
import SnippetEngine.Proofs.Document.Sections
import SnippetEngine.Proofs.Document.Substitution
import SnippetEngine.Proofs.Session.Transcript

namespace SnippetEngine

open Session Text

/-! ## The place of the cursor -/

/-- A byte offset at which a character of the text begins, or at which the text ends. -/
def Text.HasPlace (t : Text) (offset : Nat) : Prop :=
  offset ≤ t.byteSize ∧ (t.splitBytes? offset).isSome

theorem Text.hasPlace_append (front back : Text) : HasPlace (front ++ back) front.byteSize := by
  refine ⟨?_, ?_⟩
  · rw [byteSize_append]
    exact Nat.le_add_right _ _
  · rw [splitBytes?_eq_some.mpr ⟨rfl, rfl⟩]
    rfl

namespace Document

/-- The offset of the cursor is that of a place in the snippet. -/
theorem exists_takeMarkers (marker snippet : Text) :
    ∃ front back, (takeMarkers marker snippet).1 = front ++ back ∧
      (takeMarkers marker snippet).2 = front.byteSize := by
  unfold takeMarkers
  by_cases hempty : marker = []
  · subst hempty
    exact ⟨_, [], (List.append_nil _).symm, rfl⟩
  · rw [if_neg (by simpa using hempty)]
    unfold offsetOf?
    rcases hcut : cutAround? marker snippet with _ | ⟨before, after⟩
    · exact ⟨_, [], (List.append_nil _).symm, rfl⟩
    · refine ⟨before, replaceAll marker [] after, ?_, rfl⟩
      rw [replaceAll_of_cutAround? hempty [] hcut, List.append_nil]

/-- The cursor of a result is at a place of the text with the result. -/
theorem hasPlace_insert (d : Document) (before after result : Text) :
    (d.insert before after result).text.HasPlace (d.insert before after result).cursor := by
  obtain ⟨head, between, sections, -, -, -, hinsert⟩ := exists_insert_eq d before after result
  obtain ⟨front, back, hinserted, hoffset⟩ :=
    exists_takeMarkers d.config.cursorMarker (d.placeHelpers (trim result)).snippet
  dsimp only at hinsert
  rw [hinserted, hoffset, ← byteSize_append] at hinsert
  rw [hinsert]
  dsimp only
  rw [← List.append_assoc, List.append_assoc _ back, List.append_assoc _ (back ++ after)]
  exact hasPlace_append _ _

end Document

/-! ## What every state has in common -/

theorem Bindings.names_bind_of_mem {bs : Bindings} {name : Text} (h : name ∈ bs.names)
    (text : Text) : (bs.bind name text).names = bs.names := by
  induction bs with
  | nil => cases h
  | cons b bs ih =>
    unfold bind
    split
    next => rfl
    next hne =>
      have hrest := (List.mem_cons.mp h).resolve_left (Ne.symm hne)
      exact congrArg (b.1 :: ·) (ih hrest)

theorem Bindings.nodup_names_bind {bs : Bindings} (h : bs.names.Nodup) (name text : Text) :
    (bs.bind name text).names.Nodup := by
  by_cases hmem : name ∈ bs.names
  · rw [names_bind_of_mem hmem]
    exact h
  · rw [bind_of_not_mem hmem]
    unfold names at *
    rw [List.map_append, List.map_singleton, ← List.concat_eq_append]
    exact List.Nodup.concat hmem h

/-- A document of a session that began with a text and settings. -/
structure Document.IsSound (text : Text) (config : Config) (d : Document) : Prop where
  base : d.base = text
  config : d.config = config
  /-- Each variable is declared once. -/
  declared : d.declared.names.Nodup
  clean : d.isClean = true → d.text = d.base ∧ d.cursor? = none
  applied : d.isClean = false → ∃ cursor, d.cursor? = some cursor ∧ d.text.HasPlace cursor
  gathered : d.gathered.IsTidy

namespace Document

variable {text : Text} {config : Config} {d : Document}

theorem isSound_ofText (text : Text) (config : Config) : IsSound text config (ofText text config) where
  base := rfl
  config := rfl
  declared := List.nodup_nil
  clean := fun _ => ⟨rfl, rfl⟩
  applied := fun h => nomatch h
  gathered := Gathered.isTidy_nil

/-- Nothing that an operation does to a sound document makes it unsound. -/
theorem IsSound.becomes (h : IsSound text config d) {e : Document}
    (hbecomes : Becomes Gathered.IsTidy d e) : IsSound text config e := by
  cases hbecomes with
  | kept hg => exact { h with gathered := hg }
  | @applied g hg before after result =>
    exact { h with
      clean := fun hclean => nomatch hclean
      applied := fun _ => ⟨_, rfl, hasPlace_insert { d with gathered := g } before after result⟩
      gathered := hg }
  | discarded =>
    exact { h with
      clean := fun _ => ⟨rfl, rfl⟩
      applied := fun happlied => nomatch happlied
      gathered := Gathered.isTidy_nil }

theorem IsSound.edit (h : IsSound text config d) (o : Operation) :
    IsSound text config (o.edit d) := by
  cases o with
  | declare name type => exact { h with declared := Bindings.nodup_names_bind h.declared name type }
  | select selection => exact { h with }
  | _ => exact h

end Document

namespace Operation

variable {text : Text} {config : Config}

theorem after_sound (history : List Operation) {s : Synthesizer Document}
    (hs : s.evaluator.IsSound text config) : (after history s).evaluator.IsSound text config := by
  induction history generalizing s with
  | nil => exact hs
  | cons o os ih =>
    apply ih
    exact (hs.edit o).becomes
      (perform_becomes Gathered.isKept_isTidy Gathered.isTidy_nil o hs.gathered)

/-! ## Resets -/

/-- The operations that declare the variables of a document and select what is selected there. -/
def restoring (d : Document) : List Operation :=
  d.declared.map (fun p => declare p.1 p.2) ++ [select d.selection]

theorem not_mentionedIn_restoring (d : Document) (e : SharedEffect) :
    ¬ MentionedIn (restoring d) e := by
  rintro ⟨o, ho, he⟩
  rcases List.mem_append.mp ho with hdeclare | hselect
  · obtain ⟨p, -, rfl⟩ := List.mem_map.mp hdeclare
    exact he
  · rw [List.mem_singleton.mp hselect] at he
    exact he

theorem stateAfter_declares (pairs : List (Text × Text)) (d : Document) :
    stateAfter performAfresh (pairs.map fun p => declare p.1 p.2) d =
      { d with declared := pairs.foldl (fun bs p => Bindings.bind p.1 p.2 bs) d.declared } := by
  induction pairs generalizing d with
  | nil => rfl
  | cons p ps ih => exact ih (d.declare p.1 p.2)

/-- Without its results and gathered things, a sound document is what its declared variables and its
selection make of a new one. -/
theorem stateAfter_restoring {d : Document} (h : d.IsSound text config) :
    stateAfter performAfresh (restoring d) (.ofText text config) = d.reset := by
  have hdeclared : d.declared.foldl (fun bs p => Bindings.bind p.1 p.2 bs) [] = d.declared :=
    Bindings.ofList_eq_self h.declared
  obtain rfl := h.base
  obtain rfl := h.config
  have hdeclares := stateAfter_declares d.declared (.ofText d.base d.config)
  rw [show (Document.ofText d.base d.config).declared = [] from rfl, hdeclared] at hdeclares
  unfold restoring
  rw [stateAfter_append, hdeclares]
  rfl

/-- Nothing is compiled to restore a document. -/
theorem after_restoring {d : Document} (h : d.IsSound text config) :
    (after (restoring d) (opening text config)).evaluator = d.reset ∧
      (after (restoring d) (opening text config)).cache = [] := by
  obtain ⟨-, hcache, hend⟩ := answers_mirrors (E := fun _ => False) (s := opening text config)
    (fun _ _ he => he.elim) (not_mentionedIn_restoring d) ⟨caches_opening text config _, rfl⟩
  refine ⟨hend.trans (stateAfter_restoring h), List.eq_nil_iff_forall_not_mem.mpr ?_⟩
  intro entry hentry
  obtain ⟨_, hnone, -⟩ := hcache entry hentry
  exact hnone

/-! ## Whole sessions -/

/-- Every state that a session on a document can reach is sound. Behind a reset, a session in which
effects with one id have one code goes on like a new one in which the same variables were declared
and the same was selected. -/
theorem states_are_sound_and_resets_begin_anew (text : Text) (config : Config) :
    let new := opening text config
    (∀ history, (after history new).evaluator.IsSound text config) ∧
      ∀ history later, Coherent (MentionedIn (history ++ later)) →
        let used := after (history ++ [.reset]) new
        let fresh := after (restoring used.evaluator) new
        fresh.evaluator = used.evaluator ∧ fresh.cache = [] ∧
          answers perform later used = answers perform later fresh ∧
          (after later used).evaluator = (after later fresh).evaluator := by
  intro new
  have hsound : ∀ history, (after history new).evaluator.IsSound text config := fun history =>
    after_sound history (Document.isSound_ofText text config)
  refine ⟨hsound, fun history later hE => ?_⟩
  intro used fresh
  have hreset : used.evaluator.reset = used.evaluator := by
    have hused : used = Environment.reset (after history new) := List.foldl_append
    rw [hused]
    rfl
  obtain ⟨hrestored, hempty⟩ := after_restoring (hsound (history ++ [.reset]))
  have hfresh : fresh.evaluator = used.evaluator := hrestored.trans hreset
  have hmentioned : ∀ e, MentionedIn (history ++ [.reset]) e → MentionedIn (history ++ later) e := by
    intro e he
    rcases mentionedIn_append.mp he with hhistory | ⟨o, ho, hreset⟩
    · exact mentionedIn_append.mpr (.inl hhistory)
    · rw [List.mem_singleton.mp ho] at hreset
      exact hreset.elim
  obtain ⟨-, hused, -⟩ := answers_mirrors (s := new) hE hmentioned
    ⟨caches_opening text config _, rfl⟩
  have hnone : fresh.Caches (MentionedIn (history ++ later)) := by
    intro entry hentry
    rw [hempty] at hentry
    cases hentry
  have hlater : ∀ e, MentionedIn later e → MentionedIn (history ++ later) e := fun _ he =>
    mentionedIn_append.mpr (.inr he)
  exact ⟨hfresh, hempty, answers_congr hE hlater hused hnone hfresh.symm⟩

/-- Behind a letter of two bytes the cursor stands at offset 7. Once the greeting is taken back, the
session goes on like a new one. -/
theorem greeting_behind_a_wide_letter :
    let history : List Operation :=
      [.declare ['x'] "int".toList, .select ⟨2, 2⟩, .apply (matchOf (greeting 0)) 0]
    let later : List Operation := [.completions (matchOf (greeting 0)) 1,
      .apply (matchOf (greeting 1)) 0]
    let new := opening ['é'] {}
    let used := after (history ++ [.reset]) new
    Coherent (MentionedIn (history ++ later)) ∧
      (after history new).evaluator.cursor? = some 7 ∧
      (after history new).evaluator.text.HasPlace 7 ∧
      answers perform later used = answers perform later (after (restoring used.evaluator) new) := by
  intro history later new used
  have hE : Coherent (MentionedIn (history ++ later)) := coherent_of_effects (by decide +kernel)
  obtain ⟨hsound, hreset⟩ := states_are_sound_and_resets_begin_anew ['é'] {}
  have hcursor : (after history new).evaluator.cursor? = some 7 := by decide +kernel
  obtain ⟨cursor, hsome, hplace⟩ := (hsound history).applied (by decide +kernel)
  have heq : cursor = 7 := Option.some.inj (hsome.symm.trans hcursor)
  rw [heq] at hplace
  obtain ⟨-, -, hanswers, -⟩ := hreset history later hE
  exact ⟨hE, hcursor, hplace, hanswers⟩

end Operation

end SnippetEngine
