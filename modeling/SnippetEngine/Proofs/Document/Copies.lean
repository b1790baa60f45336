-- How often a helper is added that is captured several times in one walk. It is added for every
-- capture that is not recognised, and what is recognised is a class that the base text had before
-- the walk. The names that the helpers of the walk take only make the search go on, so a copy that
-- the same application adds is no reason to leave out the next one.
import Mathlib.Data.List.Flatten
import SnippetEngine.Proofs.Document.References

namespace SnippetEngine

open Session Text

namespace Helper

variable {base : Text} {h : Helper} {N : Text}

/-! ## Recognition while helpers are placed -/

/-- A helper stays recognised when more names are taken. -/
theorem IsRecognisedAmong.mono {effectId : Text} {taken : List Text}
    (h : IsRecognisedAmong base effectId taken N) (more : List Text) :
    IsRecognisedAmong base effectId (taken ++ more) N := by
  obtain ⟨k, hk, hused, hheld⟩ := h
  refine ⟨k, hk, fun i hi hik => ?_, hheld⟩
  rw [← List.append_assoc]
  exact List.mem_append_left _ (hused i hi hik)

/-- What becomes of a helper that declares the class `N` first. -/
theorem fate_of_class (hclass : (Code.classNames h.body).head? = some N) (taken : List Text) :
    h.fate base taken =
      if isHeld base h.effectId (serving base h.effectId taken N) then
        .skipped N (serving base h.effectId taken N)
      else .named ⟨N, serving base h.effectId taken N⟩ := by
  unfold fate
  rw [isEmpty_body hclass, hclass]
  rfl

/-- The helper is added unless it is recognised. -/
theorem naming?_fate (hclass : (Code.classNames h.body).head? = some N) (taken : List Text) :
    (IsRecognisedAmong base h.effectId taken N → (h.fate base taken).naming? = none) ∧
      (¬ IsRecognisedAmong base h.effectId taken N →
        (h.fate base taken).naming? = some ⟨N, serving base h.effectId taken N⟩) := by
  rw [fate_of_class hclass, ← isHeld_serving_iff]
  exact ⟨fun hheld => by rw [if_pos hheld]; rfl, fun hheld => by rw [if_neg hheld]; rfl⟩

/-- The helper becomes a section if it is added. -/
theorem section?_fate (hclass : (Code.classNames h.body).head? = some N) (taken : List Text) :
    (h.fate base taken).section? h = (h.fate base taken).naming?.map fun m => h.copy N m.name := by
  rw [fate_of_class hclass]
  split
  · rfl
  · rfl

/-- The names that are taken once helpers are placed. -/
def takenAfter (base : Text) (taken : List Text) (hs : List Helper) : List Text :=
  taken ++ (namings (fates base taken hs)).map (·.name)

theorem takenAfter_nil (taken : List Text) : takenAfter base taken [] = taken := by
  simp [takenAfter, fates, namings]

theorem takenAfter_cons (taken : List Text) (k : Helper) (hs : List Helper) :
    takenAfter base taken (k :: hs) =
      takenAfter base (taken ++ (k.fate base taken).naming?.toList.map (·.name)) hs := by
  simp [takenAfter, fates, namings]

/-! ## The copies of a helper -/

/-- The namings for which a helper is added. -/
def copies (h : Helper) (fs : List (Helper × Fate)) : List Naming :=
  namings (fs.filter (·.1 == h))

theorem copies_cons_self (f : Fate) (fs : List (Helper × Fate)) :
    copies h ((h, f) :: fs) = f.naming?.toList ++ copies h fs := by
  simp [copies, namings]

theorem copies_cons_of_ne {k : Helper} (hne : k ≠ h) (f : Fate) (fs : List (Helper × Fate)) :
    copies h ((k, f) :: fs) = copies h fs := by
  simp [copies, hne]

theorem copies_sublist (h : Helper) (fs : List (Helper × Fate)) :
    (copies h fs).Sublist (namings fs) :=
  List.filter_sublist.flatMap _

theorem fates_cons (taken : List Text) (k : Helper) (hs : List Helper) :
    fates base taken (k :: hs) = (k, k.fate base taken) ::
      fates base (taken ++ (k.fate base taken).naming?.toList.map (·.name)) hs := rfl

/-- A helper that is recognised becomes no copy, and takes no name. -/
theorem copies_fates_cons_of_recognised (hclass : (Code.classNames h.body).head? = some N)
    {taken : List Text} (hr : IsRecognisedAmong base h.effectId taken N) (hs : List Helper) :
    copies h (fates base taken (h :: hs)) = copies h (fates base taken hs) := by
  rw [fates_cons, copies_cons_self, (naming?_fate hclass taken).1 hr]
  simp

theorem copies_fates_cons_of_not (hclass : (Code.classNames h.body).head? = some N)
    {taken : List Text} (hr : ¬ IsRecognisedAmong base h.effectId taken N) (hs : List Helper) :
    copies h (fates base taken (h :: hs)) =
      ⟨N, serving base h.effectId taken N⟩ ::
        copies h (fates base (taken ++ [serving base h.effectId taken N]) hs) := by
  rw [fates_cons, copies_cons_self, (naming?_fate hclass taken).2 hr]
  rfl

/-- What holds wherever the helper is captured, said of the first helper and of the rest. -/
theorem forall_captures_cons {P : List Helper → List Helper → Prop} {k : Helper}
    {hs : List Helper} : (∀ pre post, k :: hs = pre ++ h :: post → P pre post) ↔
      (k = h → P [] hs) ∧ ∀ pre post, hs = pre ++ h :: post → P (k :: pre) post := by
  constructor
  · intro hall
    refine ⟨fun hk => hall [] hs (by rw [hk]; rfl), fun pre post hsplit => ?_⟩
    exact hall (k :: pre) post (by rw [hsplit]; rfl)
  · rintro ⟨hfirst, hrest⟩ pre post hsplit
    obtain _ | ⟨l, pre⟩ := pre
    · obtain ⟨hk, rfl⟩ := List.cons.inj hsplit
      exact hfirst hk
    · obtain ⟨hl, hsplit'⟩ := List.cons.inj hsplit
      rw [← hl]
      exact hrest pre post hsplit'

/-- There is no copy just if the helper is recognised wherever it is captured. -/
theorem copies_eq_nil_iff (hclass : (Code.classNames h.body).head? = some N) (taken : List Text)
    (hs : List Helper) : copies h (fates base taken hs) = [] ↔
      ∀ pre post, hs = pre ++ h :: post →
        IsRecognisedAmong base h.effectId (takenAfter base taken pre) N := by
  induction hs generalizing taken with
  | nil => simp [fates, copies, namings]
  | cons k hs ih =>
    rw [forall_captures_cons]
    simp only [takenAfter_cons, takenAfter_nil]
    by_cases hk : k = h
    · subst hk
      by_cases hr : IsRecognisedAmong base k.effectId taken N
      · rw [copies_fates_cons_of_recognised hclass hr, ih, (naming?_fate hclass taken).1 hr]
        simp [hr]
      · rw [copies_fates_cons_of_not hclass hr]
        simp [hr]
    · rw [fates_cons, copies_cons_of_ne hk, ih]
      simp [hk]

/-- There is one copy at most just if the helper is recognised wherever it is captured again. -/
theorem copies_length_le_one_iff (hclass : (Code.classNames h.body).head? = some N)
    (taken : List Text) (hs : List Helper) : (copies h (fates base taken hs)).length ≤ 1 ↔
      ∀ pre rest, hs = pre ++ h :: rest → ∀ mid post, rest = mid ++ h :: post →
        IsRecognisedAmong base h.effectId (takenAfter base taken (pre ++ h :: mid)) N := by
  induction hs generalizing taken with
  | nil => simp [fates, copies, namings]
  | cons k hs ih =>
    rw [forall_captures_cons]
    simp only [List.nil_append, List.cons_append, takenAfter_cons]
    by_cases hk : k = h
    · subst hk
      by_cases hr : IsRecognisedAmong base k.effectId taken N
      · -- what is recognised now is recognised from now on
        rw [copies_fates_cons_of_recognised hclass hr, ih, (naming?_fate hclass taken).1 hr]
        have hall : ∀ ks, IsRecognisedAmong base k.effectId (takenAfter base taken ks) N :=
          fun ks => hr.mono _
        simp [hall]
      · -- the first capture is added, so no later one may be
        rw [copies_fates_cons_of_not hclass hr, List.length_cons, Nat.succ_le_succ_iff, Nat.le_zero,
          List.length_eq_zero_iff, copies_eq_nil_iff hclass, (naming?_fate hclass taken).2 hr]
        refine ⟨fun hall => ⟨fun _ => hall, ?_⟩, fun hall => hall.1 rfl⟩
        rintro pre _ rfl mid post rfl
        exact hall (pre ++ k :: mid) post (by simp)
    · rw [fates_cons, copies_cons_of_ne hk, ih]
      simp [hk]

/-- A helper whose class is nowhere tagged is added as often as it is captured. -/
theorem copies_length_eq_count (hclass : (Code.classNames h.body).head? = some N)
    (hfree : ∀ k, 1 ≤ k → isHeld base h.effectId (FreeName.candidate N k) = false)
    (taken : List Text) (hs : List Helper) :
    (copies h (fates base taken hs)).length = hs.count h := by
  have hr : ∀ taken, ¬ IsRecognisedAmong base h.effectId taken N := by
    rintro taken ⟨k, hk, -, hheld⟩
    rw [hfree k hk] at hheld
    cases hheld
  induction hs generalizing taken with
  | nil => rfl
  | cons k hs ih =>
    by_cases hk : k = h
    · subst hk
      rw [copies_fates_cons_of_not hclass (hr taken), List.length_cons, ih, List.count_cons_self]
    · rw [fates_cons, copies_cons_of_ne hk, ih, List.count_cons_of_ne hk]

/-- The copies are the sections of the helper. -/
theorem sections_filter (hclass : (Code.classNames h.body).head? = some N) (taken : List Text)
    (hs : List Helper) : sections ((fates base taken hs).filter (·.1 == h)) =
      (copies h (fates base taken hs)).map fun m => h.copy N m.name := by
  induction hs generalizing taken with
  | nil => rfl
  | cons k hs ih =>
    rw [fates_cons]
    by_cases hk : k = h
    · subst hk
      rw [copies_cons_self, List.map_append, ← ih, List.filter_cons_of_pos (by simp)]
      change ((k.fate base taken).section? k).toList ++ _ = _
      rw [section?_fate hclass, Option.toList_map]
      rfl
    · rw [copies_cons_of_ne hk, ← ih, List.filter_cons_of_neg (by simpa using hk)]

end Helper

theorem AreNew.nodup_names {inUse : List Text} {ms : List Naming} (h : AreNew inUse ms) :
    (ms.map (·.name)).Nodup := by
  induction h with
  | nil => exact List.nodup_nil
  | @cons inUse m ms hnew hdesired hrest ih =>
    rw [List.map_cons, List.nodup_cons]
    refine ⟨fun hm => ?_, ih⟩
    obtain ⟨l, hl, hname⟩ := List.mem_map.mp hm
    exact hrest.not_mem hl (by simp [hname])

/-! ## The copies that an application adds -/

/-- The sections of a helper that declares a class are its copies, each under a name of its own. It
is added once at most if and only if it is recognised wherever it is captured again, and what is
recognised is a class of the base text. Without such a class it is added as often as it is
captured. -/
theorem helper_is_added_again_unless_recognised {t : MatchTree} {n : NodeId}
    {s : Synthesizer Document} (happlied : outcome (Environment.apply t n) s = .ok ()) :
    let d := (final (Environment.apply t n) s).evaluator
    let base := s.evaluator.base
    let hs := d.gathered.helpers
    let fs := Helper.fates base [] hs
    ∃ result before after, outcome (Environment.evaluate t n false) s = .ok result ∧
      s.evaluator.around? = some (before, after) ∧
      d.text = Document.appendSections
        (d.spliced before after (Code.mapIdentifiers (follow (namings fs)) (trim result)))
        (sections fs) ∧
      ∀ h N, (Code.classNames h.body).head? = some N →
        let copies := h.copies fs
        sections (fs.filter (·.1 == h)) = copies.map (fun m => h.copy N m.name) ∧
        (copies.map (·.name)).Nodup ∧
        (copies.length ≤ 1 ↔ ∀ pre mid post, hs = pre ++ h :: (mid ++ h :: post) →
          Helper.IsRecognisedAmong base h.effectId
            (Helper.takenAfter base [] (pre ++ h :: mid)) N) ∧
        ((∀ k, 1 ≤ k → Helper.isHeld base h.effectId (FreeName.candidate N k) = false) →
          copies.length = hs.count h) := by
  intro d base hs fs
  obtain ⟨result, g, before, after, hy⟩ := Synthesizer.exists_yields happlied
  refine ⟨result, before, after, hy.value, hy.place, hy.text, fun h N hclass => ?_⟩
  intro copies
  refine ⟨Helper.sections_filter hclass [] hs, ?_, ?_,
    fun hfree => Helper.copies_length_eq_count hclass hfree [] hs⟩
  · have hnew : AreNew (Code.classNames base ++ []) (namings fs) := Helper.areNew_namings [] hs
    exact ((Helper.copies_sublist h fs).map _).nodup hnew.nodup_names
  · rw [Helper.copies_length_le_one_iff hclass]
    constructor
    · intro hall pre mid post hsplit
      exact hall pre _ hsplit mid post rfl
    · rintro hall pre _ hsplit mid post rfl
      exact hall pre mid post hsplit

def nestedFoo : MatchTree :=
  .ofNested "${helper}class Foo {}${endHelper}new Foo(${x})".toList

/-- The class `Foo` is free and `Foo2` is tagged. The first capture is added as `Foo`, and behind it
the search for a name meets `Foo2`, so the second capture is recognised. -/
theorem helper_is_recognised_behind_its_copy :
    let base := "\n\n// Snippet ID: e\nclass Foo2 {}".toList
    let x : Session (Synthesizer Document) Unit := Environment.apply nestedFoo 3
    let d := (final x (fooSession base)).evaluator
    let h : Helper := ⟨['e'], "class Foo {}".toList⟩
    outcome x (fooSession base) = .ok () ∧ d.gathered.helpers = [h, h] ∧
      (Code.classNames h.body).head? = some "Foo".toList ∧
      (h.copies (Helper.fates base [] [h, h])).length ≤ 1 ∧
      d.text = ("new Foo(new Foo())".toList ++ base ++
        "\n\n// Snippet ID: e\nclass Foo {}".toList) := by
  intro base x d h
  have hok : outcome x (fooSession base) = .ok () := by decide +kernel
  have hhelpers : d.gathered.helpers = [h, h] := by decide +kernel
  have hclass : (Code.classNames h.body).head? = some "Foo".toList := by decide +kernel
  obtain ⟨result, before, after, -, -, -, hcopies⟩ := helper_is_added_again_unless_recognised hok
  obtain ⟨-, -, honce, -⟩ := hcopies h "Foo".toList hclass
  have hhelpers' : (final x (fooSession base)).evaluator.gathered.helpers = [h, h] := hhelpers
  rw [hhelpers'] at honce
  refine ⟨hok, hhelpers, hclass, honce.mpr fun pre mid post hsplit => ?_, by decide +kernel⟩
  obtain ⟨rfl, rfl⟩ : pre = [] ∧ mid = [] := by
    have := congrArg List.length hsplit
    simp only [List.length_append, List.length_cons, List.length_nil] at this
    exact ⟨List.length_eq_zero_iff.mp (by omega), List.length_eq_zero_iff.mp (by omega)⟩
  refine ⟨2, by decide, fun i hi hi' => ?_, by decide +kernel⟩
  obtain rfl | rfl : i = 1 ∨ i = 2 := by omega
  · decide +kernel
  · decide +kernel

/-- The class `Foo` is nowhere tagged, and the helper is added for both captures. -/
theorem helper_of_nested_effects_is_added_twice :
    let x : Session (Synthesizer Document) Unit := Environment.apply nestedFoo 3
    let d := (final x (fooSession [])).evaluator
    let h : Helper := ⟨['e'], "class Foo {}".toList⟩
    outcome x (fooSession []) = .ok () ∧ d.gathered.helpers = [h, h] ∧
      (Code.classNames h.body).head? = some "Foo".toList ∧
      sections ((Helper.fates [] [] d.gathered.helpers).filter (·.1 == h)) =
        ["// Snippet ID: e\nclass Foo {}".toList, "// Snippet ID: e\nclass Foo2 {}".toList] ∧
      d.text = ("new Foo2(new Foo2())\n\n// Snippet ID: e\nclass Foo {}\n\n// Snippet ID: e\n" ++
        "class Foo2 {}").toList := by
  refine ⟨?_, ?_, ?_, ?_, ?_⟩
  · decide +kernel
  · decide +kernel
  · decide +kernel
  · decide +kernel
  · decide +kernel

end SnippetEngine
