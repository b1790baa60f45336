-- What becomes of the helpers of an evaluation. A helper is served by the first candidate for its
-- class that names no class yet, or names a class of the base text that is tagged with the effect.
-- In the first case the helper is added under that name and the snippet is renamed, in the second
-- it is skipped. So the names that are given are new, and a class that gets another name had to.
import SnippetEngine.Proofs.Code.Identifiers
import SnippetEngine.Proofs.Document.Helpers
import SnippetEngine.Proofs.FreeName

namespace SnippetEngine

open Text

/-! ## The class that serves a helper -/

namespace Helper

/-- The first candidate that names no class yet, or names one that is tagged with the effect. -/
def serving (base effectId : Text) (taken : List Text) (desired : Text) : Text :=
  FreeName.first ((Code.classNames base ++ taken).filter (!isHeld base effectId ·)) desired

variable {base effectId desired : Text} {taken : List Text}

theorem mem_of_isHeld {name : Text} (h : isHeld base effectId name = true) :
    name ∈ Code.classNames base :=
  List.contains_iff_mem.mp (Bool.and_eq_true_iff.mp h).1

theorem className?_eq : className? base effectId taken desired =
    if isHeld base effectId (serving base effectId taken desired) then none
    else some (serving base effectId taken desired) :=
  FreeName.search_eq_first (fun _ h => List.mem_append_left _ (mem_of_isHeld h)) desired

/-- The candidates before the class that serves name classes, and none of these is tagged. -/
theorem serving_eq_candidate (base effectId : Text) (taken : List Text) (desired : Text) :
    ∃ k, 1 ≤ k ∧ serving base effectId taken desired = FreeName.candidate desired k ∧
      (isHeld base effectId (serving base effectId taken desired) = false →
        serving base effectId taken desired ∉ Code.classNames base ++ taken) ∧
      ∀ i, 1 ≤ i → i < k → FreeName.candidate desired i ∈ Code.classNames base ++ taken ∧
        isHeld base effectId (FreeName.candidate desired i) = false := by
  obtain ⟨k, hk, hname, hfree, hpassed⟩ :=
    FreeName.first_eq_candidate
      ((Code.classNames base ++ taken).filter (!isHeld base effectId ·)) desired
  refine ⟨k, hk, hname, fun hheld hu => hfree ?_, fun i hi hik => by
    simpa [← or_and_right] using hpassed i hi hik⟩
  exact List.mem_filter.mpr ⟨hu, by rw [← serving, hheld]; rfl⟩

/-- The class that serves a helper is held just if its name is in use. -/
theorem isHeld_serving_iff_mem :
    isHeld base effectId (serving base effectId taken desired) = true ↔
      serving base effectId taken desired ∈ Code.classNames base ++ taken := by
  refine ⟨fun hheld => List.mem_append_left _ (mem_of_isHeld hheld), fun hmem => ?_⟩
  obtain ⟨k, -, -, hfree, -⟩ := serving_eq_candidate base effectId taken desired
  by_contra hheld
  exact hfree (by simpa using hheld) hmem

/-- The class that serves a helper is held just if the helper is recognised. -/
theorem isHeld_serving_iff :
    isHeld base effectId (serving base effectId taken desired) = true ↔
      IsRecognisedAmong base effectId taken desired := by
  rw [← className?_eq_none_iff, className?_eq]
  split
  next hheld => simp [hheld]
  next hheld => simp [hheld]

theorem isRun_serving (h : Code.IsRun desired) :
    Code.IsRun (serving base effectId taken desired) := by
  obtain ⟨k, -, hname, -⟩ := serving_eq_candidate base effectId taken desired
  rw [hname]
  exact h.candidate k

theorem mem_of_serving_ne (h : serving base effectId taken desired ≠ desired) :
    desired ∈ Code.classNames base ++ taken := by
  obtain ⟨k, hk, hname, -, hpassed⟩ := serving_eq_candidate base effectId taken desired
  rcases Nat.eq_or_lt_of_le hk with rfl | hlt
  · exact absurd hname h
  · exact (hpassed 1 (Nat.le_refl 1) hlt).1

end Helper

/-! ## What becomes of the helpers -/

/-- The class that a helper declares first, and the name under which it is added. -/
structure Naming where
  desired : Text
  name : Text
  deriving DecidableEq

/-- What becomes of a helper. -/
inductive Fate
  /-- The helper is blank. -/
  | dropped
  /-- The helper declares no class, and is added as it is. -/
  | added
  /-- The class that serves the helper is there. -/
  | skipped (desired serving : Text)
  /-- The helper is added, and its class gets a new name. -/
  | named (naming : Naming)
  deriving DecidableEq

namespace Fate

def naming? : Fate → Option Naming
  | named m => some m
  | _ => none

/-- The section that the helper becomes. -/
def section? (h : Helper) : Fate → Option Text
  | added => some (Helper.tagLine h.effectId ++ '\n' :: h.body)
  | named m => some (h.copy m.desired m.name)
  | _ => none

end Fate

namespace Helper

/-- What becomes of a helper when these class names are taken by helpers. -/
def fate (base : Text) (taken : List Text) (h : Helper) : Fate :=
  if h.body.isEmpty then .dropped else
    match (Code.classNames h.body).head? with
    | none => .added
    | some desired =>
      if isHeld base h.effectId (serving base h.effectId taken desired) then
        .skipped desired (serving base h.effectId taken desired)
      else .named ⟨desired, serving base h.effectId taken desired⟩

/-- What becomes of helpers, one after another. -/
def fates (base : Text) : (taken : List Text) → List Helper → List (Helper × Fate)
  | _, [] => []
  | taken, h :: hs =>
    (h, h.fate base taken) ::
      fates base (taken ++ (h.fate base taken).naming?.toList.map (·.name)) hs

end Helper

/-- The classes of the helpers that are added, with the names that they get. -/
def namings (fates : List (Helper × Fate)) : List Naming := fates.flatMap (·.2.naming?.toList)

/-- The sections that the helpers become. -/
def sections (fates : List (Helper × Fate)) : List Text :=
  fates.flatMap fun f => (f.2.section? f.1).toList

/-- The snippet with the renamings of the helpers, one after another. -/
def renameAll (ms : List Naming) (snippet : Text) : Text :=
  ms.foldl (fun code m => Code.rename m.desired m.name code) snippet

namespace Placement

variable (base : Text) (p : Placement)

theorem place_eq (h : Helper) :
    p.place base h =
      { snippet := renameAll (h.fate base p.taken).naming?.toList p.snippet
        taken := p.taken ++ (h.fate base p.taken).naming?.toList.map (·.name)
        sections := p.sections ++ ((h.fate base p.taken).section? h).toList } := by
  unfold place Helper.fate
  split
  · simp [Fate.naming?, Fate.section?, renameAll]
  · rcases (Code.classNames h.body).head? with _ | desired
    · simp [Fate.naming?, Fate.section?, renameAll, append]
    · dsimp only
      rw [Helper.className?_eq]
      by_cases hheld :
        Helper.isHeld base h.effectId (Helper.serving base h.effectId p.taken desired) = true
      · simp [hheld, Fate.naming?, Fate.section?, renameAll]
      · simp [hheld, Fate.naming?, Fate.section?, renameAll, take, append, Helper.copy]

theorem foldl_place (hs : List Helper) :
    hs.foldl (place base) p =
      let fs := Helper.fates base p.taken hs
      { snippet := renameAll (namings fs) p.snippet
        taken := p.taken ++ (namings fs).map (·.name)
        sections := p.sections ++ SnippetEngine.sections fs } := by
  induction hs generalizing p with
  | nil => simp [Helper.fates, namings, SnippetEngine.sections, renameAll]
  | cons h hs ih =>
    rw [List.foldl_cons, ih, place_eq]
    simp only [Helper.fates, namings, SnippetEngine.sections, renameAll, List.flatMap_cons,
      List.foldl_append, List.map_append, List.append_assoc]

end Placement

/-! ## Renamings one after another -/

/-- What becomes of an identifier with one naming. -/
def Naming.renamed (m : Naming) (name : Text) : Text := if name = m.desired then m.name else name

/-- What becomes of an identifier when the namings rename one after another. -/
def follow (ms : List Naming) (name : Text) : Text :=
  ms.foldl (fun name m => m.renamed name) name

/-- What becomes of an identifier when the namings rename at the same time. -/
def simultaneous (ms : List Naming) (name : Text) : Text :=
  ((ms.find? (·.desired == name)).map (·.name)).getD name

theorem Naming.renamed_desired (m : Naming) : m.renamed m.desired = m.name := if_pos rfl

theorem Naming.renamed_of_ne {m : Naming} {name : Text} (h : name ≠ m.desired) :
    m.renamed name = name := if_neg h

theorem follow_cons (m : Naming) (ms : List Naming) (name : Text) :
    follow (m :: ms) name = follow ms (m.renamed name) := rfl

theorem follow_append (ms ls : List Naming) (name : Text) :
    follow (ms ++ ls) name = follow ls (follow ms name) := List.foldl_append

theorem simultaneous_cons (m : Naming) (ms : List Naming) (name : Text) :
    simultaneous (m :: ms) name = if name = m.desired then m.name else simultaneous ms name := by
  by_cases h : name = m.desired
  · simp [simultaneous, h]
  · simp [simultaneous, h, Ne.symm h]

/-- The namings stand for identifiers. -/
def AreRuns (ms : List Naming) : Prop := ∀ m ∈ ms, Code.IsRun m.desired ∧ Code.IsRun m.name

theorem AreRuns.cons {m : Naming} {ms : List Naming} (h : AreRuns (m :: ms)) :
    (Code.IsRun m.desired ∧ Code.IsRun m.name) ∧ AreRuns ms := List.forall_mem_cons.mp h

theorem Naming.isRun_renamed {m : Naming} (h : Code.IsRun m.name) {name : Text}
    (hname : Code.IsRun name) : Code.IsRun (m.renamed name) := hname.replace h

theorem isRun_follow {ms : List Naming} (h : AreRuns ms) {name : Text} (hname : Code.IsRun name) :
    Code.IsRun (follow ms name) := by
  induction ms generalizing name with
  | nil => exact hname
  | cons m ms ih => exact ih h.cons.2 (m.isRun_renamed h.cons.1.2 hname)

theorem isRun_simultaneous {ms : List Naming} (h : AreRuns ms) {name : Text}
    (hname : Code.IsRun name) : Code.IsRun (simultaneous ms name) := by
  induction ms with
  | nil => exact hname
  | cons m ms ih =>
    rw [simultaneous_cons]
    split
    · exact h.cons.1.2
    · exact ih h.cons.2

theorem renameAll_eq {ms : List Naming} (h : AreRuns ms) (snippet : Text) :
    renameAll ms snippet = Code.mapIdentifiers (follow ms) snippet := by
  induction ms generalizing snippet with
  | nil => exact (Code.mapIdentifiers_id snippet).symm
  | cons m ms ih =>
    obtain ⟨hm, hms⟩ := h.cons
    change renameAll ms (Code.rename m.desired m.name snippet) = _
    rw [ih hms, Code.rename_eq_mapIdentifiers _ hm.1]
    exact Code.mapIdentifiers_mapIdentifiers (fun _ => m.isRun_renamed hm.2) snippet

/-! ## Names that are new -/

/-- Each naming gives a name that is not in use, neither before nor by the namings in front of it,
and it gives the desired name unless that one is in use. -/
inductive AreNew : (inUse : List Text) → List Naming → Prop
  | nil (inUse : List Text) : AreNew inUse []
  | cons {inUse : List Text} {m : Naming} {ms : List Naming} (isNew : m.name ∉ inUse)
    (isDesired : m.name ≠ m.desired → m.desired ∈ inUse) (rest : AreNew (inUse ++ [m.name]) ms) :
    AreNew inUse (m :: ms)

namespace AreNew

variable {inUse : List Text} {ms pre post : List Naming} {m : Naming} {name other : Text}

theorem of_append (h : AreNew inUse (pre ++ ms)) :
    AreNew inUse pre ∧ AreNew (inUse ++ pre.map (·.name)) ms := by
  induction pre generalizing inUse with
  | nil => exact ⟨.nil _, by simpa using h⟩
  | cons l pre ih =>
    obtain _ | ⟨hnew, hdesired, hrest⟩ := h
    obtain ⟨hpre, hms⟩ := ih hrest
    exact ⟨.cons hnew hdesired hpre, by simpa using hms⟩

theorem not_mem (h : AreNew inUse ms) (hm : m ∈ ms) : m.name ∉ inUse := by
  induction h with
  | nil => cases hm
  | cons hnew _ _ ih =>
    rcases List.mem_cons.mp hm with rfl | hm
    · exact hnew
    · exact fun hu => ih hm (List.mem_append_left _ hu)

/-- No other identifier becomes a name that is in use. -/
theorem follow_ne (h : AreNew inUse ms) (hother : other ∈ inUse) (hne : name ≠ other) :
    follow ms name ≠ other := by
  induction h generalizing name with
  | nil => exact hne
  | @cons inUse m ms hnew _ _ ih =>
    rw [follow_cons]
    apply ih (List.mem_append_left _ hother)
    unfold Naming.renamed
    split
    · rintro rfl
      exact hnew hother
    · exact hne

/-- An identifier keeps its name if each naming for it leaves it as it is. -/
theorem follow_eq_self (h : AreNew inUse ms) :
    follow ms name = name ↔ ∀ l ∈ ms, l.desired = name → l.name = name := by
  induction h with
  | nil => simp [follow]
  | @cons inUse m ms hnew hdesired hrest ih =>
    rw [List.forall_mem_cons, ← ih, follow_cons]
    by_cases hname : name = m.desired
    · subst hname
      rw [m.renamed_desired]
      by_cases hm : m.name = m.desired
      · simp [hm]
      · have hmoved := hrest.follow_ne (List.mem_append_left _ (hdesired hm)) hm
        simp [hm, hmoved]
    · rw [m.renamed_of_ne hname]
      simp [Ne.symm hname]

theorem follow_eq_self_of_mem (h : AreNew inUse ms) (hname : name ∈ inUse) :
    follow ms name = name ↔ ∀ l ∈ ms, l.desired ≠ name := by
  rw [h.follow_eq_self]
  refine forall₂_congr fun l hl =>
    ⟨fun hkept hdesired => ?_, fun hne hdesired => absurd hdesired hne⟩
  exact h.not_mem hl (hkept hdesired ▸ hname)

theorem follow_mem (ms : List Naming) (name : Text) :
    follow ms name = name ∨ follow ms name ∈ ms.map (·.name) := by
  induction ms generalizing name with
  | nil => exact .inl rfl
  | cons m ms ih =>
    rw [follow_cons, List.map_cons, List.mem_cons]
    unfold Naming.renamed
    split
    next => exact .inr (ih m.name)
    next => exact (ih name).imp_right .inr

/-- An identifier ends with the name that a naming gives for it if every earlier naming for it
leaves it as it is, and no later naming is for the name that is given. -/
theorem follow_desired (h : AreNew inUse (pre ++ m :: post)) :
    follow (pre ++ m :: post) m.desired = m.name ↔
      (∀ l ∈ pre, l.desired = m.desired → l.name = m.desired) ∧ ∀ l ∈ post, l.desired ≠ m.name := by
  obtain ⟨hpre, hm⟩ := h.of_append
  obtain _ | ⟨hnew, -, hpost⟩ := hm
  have hgiven : m.name ∈ inUse ++ pre.map (·.name) ++ [m.name] := by simp
  -- an identifier that the namings in front have moved never becomes the name that is given here
  rw [follow_append, follow_cons, ← hpre.follow_eq_self, ← hpost.follow_eq_self_of_mem hgiven]
  by_cases hkept : follow pre m.desired = m.desired
  · simp [hkept, m.renamed_desired]
  · have hmoved : follow pre m.desired ≠ m.name := by
      intro he
      have := (follow_mem pre m.desired).resolve_left hkept
      rw [he] at this
      exact hnew (List.mem_append_right _ this)
    simp [hkept, m.renamed_of_ne hkept, hpost.follow_ne hgiven hmoved]

theorem simultaneous_eq_self {ms : List Naming} {name : Text} (h : name ∉ ms.map (·.desired)) :
    simultaneous ms name = name := by
  induction ms with
  | nil => rfl
  | cons m ms ih =>
    rw [List.map_cons, List.mem_cons, not_or] at h
    rw [simultaneous_cons, if_neg h.1, ih h.2]

/-- Namings for different classes rename one after another as they would at the same time, unless
one of them renames what an earlier one has written. -/
theorem follow_eq_simultaneous (h : AreNew inUse ms) (hdistinct : (ms.map (·.desired)).Nodup) :
    follow ms name = simultaneous ms name ↔
      ms.Pairwise fun m l => m.desired = name → l.desired ≠ m.name := by
  induction h with
  | nil => simp [follow, simultaneous]
  | @cons inUse m ms hnew hdesired hrest ih =>
    rw [List.map_cons, List.nodup_cons] at hdistinct
    rw [List.pairwise_cons, ← ih hdistinct.2, follow_cons, simultaneous_cons]
    by_cases hname : name = m.desired
    · subst hname
      have hself : follow ms m.desired = m.desired := by
        rw [hrest.follow_eq_self]
        exact fun l hl he => absurd (List.mem_map.mpr ⟨l, hl, he⟩) hdistinct.1
      rw [m.renamed_desired, if_pos rfl, hrest.follow_eq_self_of_mem (by simp), hself,
        simultaneous_eq_self hdistinct.1]
      simp
    · rw [m.renamed_of_ne hname, if_neg hname]
      simp [Ne.symm hname]

/-- Namings for different classes rename the identifiers of code one after another as they would at
the same time, unless one of them renames what an earlier one has written there. -/
theorem mapIdentifiers_eq_simultaneous (h : AreNew inUse ms) (hruns : AreRuns ms)
    (hdistinct : (ms.map (·.desired)).Nodup) (code : Text) :
    Code.mapIdentifiers (follow ms) code = Code.mapIdentifiers (simultaneous ms) code ↔
      ms.Pairwise fun m l => m.desired ∈ Code.identifiers code → l.desired ≠ m.name := by
  rw [Code.mapIdentifiers_eq_iff (fun _ => isRun_follow hruns) (fun _ => isRun_simultaneous hruns)]
  simp only [h.follow_eq_simultaneous hdistinct, List.pairwise_iff_forall_sublist]
  constructor
  · exact fun hpairs m l hml hm => hpairs m.desired hm hml rfl
  · rintro hpairs name hname m l hml rfl
    exact hpairs hml hname

end AreNew

/-! ## The namings of helpers -/

namespace Helper

variable {base : Text}

/-- A helper that declares a class is skipped if the class that serves it is there, and gets the
name of that class if not. -/
theorem fate_cases (taken : List Text) (h : Helper) :
    h.fate base taken = .dropped ∨ h.fate base taken = .added ∨
      ∃ desired ∈ Code.classNames h.body,
        let name := serving base h.effectId taken desired
        isHeld base h.effectId name = true ∧ h.fate base taken = .skipped desired name ∨
          isHeld base h.effectId name = false ∧ h.fate base taken = .named ⟨desired, name⟩ := by
  unfold fate
  by_cases hempty : h.body.isEmpty = true
  · exact .inl (if_pos hempty)
  right
  rw [if_neg hempty]
  rcases hhead : (Code.classNames h.body).head? with _ | desired
  · exact .inl rfl
  right
  refine ⟨desired, List.mem_of_mem_head? hhead, ?_⟩
  by_cases hheld : isHeld base h.effectId (serving base h.effectId taken desired) = true
  · exact .inl ⟨hheld, if_pos hheld⟩
  · exact .inr ⟨by simpa using hheld, if_neg hheld⟩

/-- The class of a helper that is added goes by the name that serves it. -/
theorem eq_of_naming?_fate {taken : List Text} {h : Helper} {m : Naming}
    (hm : (h.fate base taken).naming? = some m) :
    m.desired ∈ Code.classNames h.body ∧ m.name = serving base h.effectId taken m.desired ∧
      isHeld base h.effectId m.name = false := by
  obtain hfate | hfate | ⟨desired, hclass, ⟨-, hfate⟩ | ⟨hheld, hfate⟩⟩ := fate_cases taken h
  · rw [hfate] at hm
    cases hm
  · rw [hfate] at hm
    cases hm
  · rw [hfate] at hm
    cases hm
  · rw [hfate] at hm
    cases hm
    exact ⟨hclass, rfl, hheld⟩

/-- A helper is skipped for a class that is tagged in the base text. -/
theorem isTaggedClass_of_skipped {taken : List Text} {hs : List Helper} {h : Helper} {N C : Text}
    (hskipped : (h, .skipped N C) ∈ fates base taken hs) :
    isTaggedClass base h.effectId C = true := by
  induction hs generalizing taken with
  | nil => cases hskipped
  | cons k hs ih =>
    rcases List.mem_cons.mp hskipped with hfirst | hrest
    · obtain ⟨rfl, hfirst⟩ := Prod.mk.inj hfirst
      obtain hfate | hfate | ⟨_, -, ⟨hheld, hfate⟩ | ⟨-, hfate⟩⟩ := fate_cases taken h
      · rw [hfate] at hfirst
        cases hfirst
      · rw [hfate] at hfirst
        cases hfirst
      · rw [hfate] at hfirst
        cases hfirst
        exact (Bool.and_eq_true_iff.mp hheld).2
      · rw [hfate] at hfirst
        cases hfirst
    · exact ih hrest

theorem areNew_namings (taken : List Text) (hs : List Helper) :
    AreNew (Code.classNames base ++ taken) (namings (fates base taken hs)) := by
  induction hs generalizing taken with
  | nil => exact .nil _
  | cons h hs ih =>
    have hrest := ih (taken ++ (h.fate base taken).naming?.toList.map (·.name))
    change AreNew _ ((h.fate base taken).naming?.toList ++ namings _)
    rcases hm : (h.fate base taken).naming? with _ | m
    · rw [hm] at hrest
      simpa using hrest
    · rw [hm] at hrest
      obtain ⟨-, hname, hheld⟩ := eq_of_naming?_fate hm
      obtain ⟨k, -, -, hfree, -⟩ := serving_eq_candidate base h.effectId taken m.desired
      rw [hname] at hheld
      refine .cons ?_ ?_ ?_
      · rw [hname]
        exact hfree hheld
      · rw [hname]
        exact mem_of_serving_ne
      · simpa using hrest

theorem areRuns_namings (taken : List Text) (hs : List Helper) :
    AreRuns (namings (fates base taken hs)) := by
  induction hs generalizing taken with
  | nil => exact fun _ hm => nomatch hm
  | cons h hs ih =>
    intro m hm
    change m ∈ (h.fate base taken).naming?.toList ++ namings _ at hm
    rcases List.mem_append.mp hm with hm | hm
    · obtain ⟨hclass, hname, -⟩ := eq_of_naming?_fate (Option.mem_toList.mp hm)
      have hrun := Code.isRun_of_mem_classNames hclass
      exact ⟨hrun, hname ▸ isRun_serving hrun⟩
    · exact ih _ m hm

end Helper

/-! ## The text of an application -/

section Text

open Session

variable {t : MatchTree} {n : NodeId} {s : Synthesizer Document}

namespace Document

theorem placeHelpers_eq (d : Document) (snippet : Text) :
    d.placeHelpers snippet =
      let fs := Helper.fates d.base [] d.gathered.helpers
      { snippet := Code.mapIdentifiers (follow (namings fs)) snippet
        taken := (namings fs).map (·.name)
        sections := sections fs } := by
  unfold placeHelpers
  rw [Placement.foldl_place]
  dsimp only
  rw [renameAll_eq (Helper.areRuns_namings [] d.gathered.helpers)]
  rfl

end Document

/-- The snippet goes with its identifiers renamed, and the helpers that are added go behind. -/
theorem Synthesizer.Yields.text {result before after : Text} {g : Gathered}
    (h : Yields t n s result g before after) :
    let d := (final (Environment.apply t n) s).evaluator
    let fs := Helper.fates s.evaluator.base [] d.gathered.helpers
    d.text = Document.appendSections
      (d.spliced before after (Code.mapIdentifiers (follow (namings fs)) (trim result)))
      (sections fs) := by
  dsimp only
  rw [h.apply.2]
  change (Document.insert { s.evaluator with gathered := g } before after result).text = _
  rw [Document.text_insert, Document.placeHelpers_eq]
  rfl

end Text

end SnippetEngine
