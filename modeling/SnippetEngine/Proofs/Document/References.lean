-- What the snippet says about the classes of the helpers. A helper that is added takes its
-- references along; one that is skipped does not, though the class that serves it may have another
-- name. The renamings go over the snippet one after another, so a later one may rename what an
-- earlier one has written, or find no reference left.
import SnippetEngine.Proofs.Document.Contributions
import SnippetEngine.Proofs.Document.Naming

namespace SnippetEngine

open Session Text

/-! ## One helper -/

namespace Helper

theorem fates_singleton {h : Helper} {base N : Text}
    (hclass : (Code.classNames h.body).head? = some N) :
    fates base [] [h] =
      [(h, if serving base h.effectId [] N ∈ Code.classNames base then
          .skipped N (serving base h.effectId [] N)
        else .named ⟨N, serving base h.effectId [] N⟩)] := by
  simp only [fates, fate, isEmpty_body hclass, hclass, isHeld_serving_iff_mem, List.append_nil]
  rfl

end Helper

theorem Code.eq_refer_iff {N C : Text} (hC : Code.IsRun C) (code : Text) :
    code = Code.mapIdentifiers (fun name => if name = N then C else name) code ↔
      C = N ∨ N ∉ Code.identifiers code := by
  have hrefer : ∀ name, Code.IsRun name → Code.IsRun (if name = N then C else name) :=
    fun _ hname => hname.replace hC
  nth_rewrite 1 [← Code.mapIdentifiers_id code]
  rw [Code.mapIdentifiers_eq_iff (f := id) (fun _ => id) hrefer]
  constructor
  · intro h
    by_cases hN : N ∈ Code.identifiers code
    · exact .inl (by simpa using (h N hN).symm)
    · exact .inr hN
  · rintro h name hname
    split
    next heq =>
      rcases h with rfl | hN
      · exact heq
      · exact absurd (heq ▸ hname) hN
    next => rfl

/-- The one helper is served by a class `C`. If `C` is new, the helper is added under that name and
the snippet refers to it. If `C` is a class of the text, the helper is skipped and the snippet stays
as it is, so it refers to `C` only if that is the name it was written with, or if it does not refer
at all. -/
theorem snippet_refers_to_an_added_class {t : MatchTree} {n : NodeId} {s : Synthesizer Document}
    {h : Helper} {N : Text} (happlied : outcome (Environment.apply t n) s = .ok ())
    (hcaptured : (final (Environment.apply t n) s).evaluator.gathered.helpers = [h])
    (hclass : (Code.classNames h.body).head? = some N) :
    let d := (final (Environment.apply t n) s).evaluator
    let base := s.evaluator.base
    let C := Helper.serving base h.effectId [] N
    let refer := Code.mapIdentifiers fun name => if name = N then C else name
    ∃ result before after, outcome (Environment.evaluate t n false) s = .ok result ∧
      s.evaluator.around? = some (before, after) ∧
      (∃ k, 1 ≤ k ∧ C = FreeName.candidate N k ∧
        ∀ i, 1 ≤ i → i < k → FreeName.candidate N i ∈ Code.classNames base ∧
          Helper.isTaggedClass base h.effectId (FreeName.candidate N i) = false) ∧
      (C ∉ Code.classNames base →
        d.text = Document.appendSections (d.spliced before after (refer (trim result)))
          [h.copy N C]) ∧
      (C ∈ Code.classNames base →
        Helper.isTaggedClass base h.effectId C = true ∧
        d.text = d.spliced before after (trim result) ∧
        (trim result = refer (trim result) ↔ C = N ∨ N ∉ Code.identifiers (trim result))) := by
  intro d base C refer
  obtain ⟨result, g, before, after, hy⟩ := Synthesizer.exists_yields happlied
  have htext := hy.text
  dsimp only at htext
  rw [hcaptured, Helper.fates_singleton hclass] at htext
  refine ⟨result, before, after, hy.value, hy.place, ?_, fun hnew => ?_, fun hheld => ⟨?_, ?_, ?_⟩⟩
  · obtain ⟨k, hk, hC, -, hpassed⟩ := Helper.serving_eq_candidate base h.effectId [] N
    refine ⟨k, hk, hC, fun i hi hik => ?_⟩
    obtain ⟨hmem, htag⟩ := hpassed i hi hik
    rw [List.append_nil] at hmem
    refine ⟨hmem, ?_⟩
    simpa [Helper.isHeld, hmem] using htag
  · rw [if_neg hnew] at htext
    exact htext
  · have hserves := Helper.isHeld_serving_iff_mem.mpr (List.mem_append_left _ hheld)
    exact (Bool.and_eq_true_iff.mp hserves).2
  · rw [if_pos hheld] at htext
    refine htext.trans ?_
    change d.spliced before after (Code.mapIdentifiers id (trim result)) = _
    rw [Code.mapIdentifiers_id]
  · have hN := Code.isRun_of_mem_classNames (List.mem_of_mem_head? hclass)
    exact Code.eq_refer_iff (Helper.isRun_serving hN) (trim result)

theorem added_class_is_referred_to :
    let base := "\nclass Foo {}".toList
    let h : Helper := ⟨['e'], "class Foo {}".toList⟩
    let x : Session (Synthesizer Document) Unit := Environment.apply (fooTree h.code) 0
    let d := (final x (fooSession base)).evaluator
    let snippet := Code.mapIdentifiers
      (fun name => if name = "Foo".toList then "Foo2".toList else name) "new Foo()".toList
    outcome x (fooSession base) = .ok () ∧ d.gathered.helpers = [h] ∧
      (Code.classNames h.body).head? = some "Foo".toList ∧
      Helper.serving base ['e'] [] "Foo".toList = "Foo2".toList ∧
      d.text = Document.appendSections (d.spliced [] base snippet)
        [h.copy "Foo".toList "Foo2".toList] ∧
      d.text = "new Foo2()\nclass Foo {}\n\n// Snippet ID: e\nclass Foo2 {}".toList := by
  intro base h x d snippet
  have hcode : h.code ≠ [] := by simp [h]
  have hy := yields_foo hcode base
  have hhelpers : d.gathered.helpers = [h] := by decide +kernel
  have hclass : (Code.classNames h.body).head? = some "Foo".toList := by decide +kernel
  have hserving : Helper.serving base ['e'] [] "Foo".toList = "Foo2".toList := by decide +kernel
  obtain ⟨result, before, after, hvalue, hplace, -, hadded, -⟩ :=
    snippet_refers_to_an_added_class hy.apply.1 hhelpers hclass
  cases Except.ok.inj (hvalue.symm.trans hy.value)
  cases Option.some.inj (hplace.symm.trans hy.place)
  have htrim : trim "new Foo()".toList = "new Foo()".toList := by decide +kernel
  have hserving' : Helper.serving (fooSession base).evaluator.base h.effectId [] "Foo".toList =
      "Foo2".toList := hserving
  rw [hserving', htrim] at hadded
  refine ⟨hy.apply.1, hhelpers, hclass, hserving, hadded ?_, ?_⟩
  · decide +kernel
  · decide +kernel

/-- A class of the text has the name of the helper's class, and the helper stands there under
another one. The snippet refers to the first. -/
theorem skipped_class_is_not_referred_to :
    let base := "\n\nclass Foo {}\n\n// Snippet ID: e\nclass Foo2 {}".toList
    let h : Helper := ⟨['e'], "class Foo {}".toList⟩
    let x : Session (Synthesizer Document) Unit := Environment.apply (fooTree h.code) 0
    let d := (final x (fooSession base)).evaluator
    outcome x (fooSession base) = .ok () ∧ d.gathered.helpers = [h] ∧
      (Code.classNames h.body).head? = some "Foo".toList ∧
      Helper.serving base ['e'] [] "Foo".toList = "Foo2".toList ∧
      Helper.isTaggedClass base ['e'] "Foo2".toList = true ∧
      Code.rename "Foo".toList "Foo2".toList "new Foo()".toList = "new Foo2()".toList ∧
      d.text = "new Foo()".toList ++ base := by
  refine ⟨?_, ?_, ?_, ?_, ?_, ?_, ?_⟩
  · decide +kernel
  · decide +kernel
  · decide +kernel
  · decide +kernel
  · decide +kernel
  · decide +kernel
  · decide +kernel

/-! ## Several helpers -/

/-- The helpers that are added rename the snippet one after another. The references to a class get
the name that a helper gives it, if no earlier helper renames the class and no later one renames
what was written. For different classes this is the simultaneous renaming, unless the class of a
helper is the name that an earlier helper has written for a class that the snippet refers to. -/
theorem helpers_rename_one_after_another {t : MatchTree} {n : NodeId} {s : Synthesizer Document}
    (happlied : outcome (Environment.apply t n) s = .ok ()) :
    let d := (final (Environment.apply t n) s).evaluator
    let base := s.evaluator.base
    let fs := Helper.fates base [] d.gathered.helpers
    let ms := namings fs
    ∃ result before after, outcome (Environment.evaluate t n false) s = .ok result ∧
      s.evaluator.around? = some (before, after) ∧
      d.text = Document.appendSections
        (d.spliced before after (Code.mapIdentifiers (follow ms) (trim result))) (sections fs) ∧
      AreNew (Code.classNames base) ms ∧
      (∀ pre m post, ms = pre ++ m :: post →
        (follow ms m.desired = m.name ↔
          (∀ l ∈ pre, l.desired = m.desired → l.name = m.desired) ∧
            ∀ l ∈ post, l.desired ≠ m.name)) ∧
      ((ms.map (·.desired)).Nodup →
        (Code.mapIdentifiers (follow ms) (trim result) =
            Code.mapIdentifiers (simultaneous ms) (trim result) ↔
          ms.Pairwise fun m l =>
            m.desired ∈ Code.identifiers (trim result) → l.desired ≠ m.name)) := by
  intro d base fs ms
  obtain ⟨result, g, before, after, hy⟩ := Synthesizer.exists_yields happlied
  have hnew : AreNew (Code.classNames base) ms := by
    have hnamings : AreNew (Code.classNames base ++ []) ms := Helper.areNew_namings [] _
    rwa [List.append_nil] at hnamings
  have hruns : AreRuns ms := Helper.areRuns_namings [] d.gathered.helpers
  refine ⟨result, before, after, hy.value, hy.place, hy.text, hnew, ?_, fun hdistinct => ?_⟩
  · intro pre m post hms
    rw [hms] at hnew ⊢
    exact hnew.follow_desired
  · exact hnew.mapIdentifiers_eq_simultaneous hruns hdistinct (trim result)

/-- An effect `o` with the parameter `x`, applied to the match of an effect `i`. -/
def nestedTree (outer inner : Text) : MatchTree :=
  (MatchTree.ofCode ['i'] inner).attach
    ⟨1, { id := ['o'], parameters := [⟨['x'], [], [], none⟩], code := outer }⟩ [] [0]

def MatchTree.ofNested (code : Text) : MatchTree :=
  let e : SharedEffect := ⟨0, { id := ['e'], parameters := [⟨['x'], [], [], none⟩], code }⟩
  ((({} : MatchTree).push { kind := .argument {} }).attach e [] [0]).attach e [] [1]

theorem different_classes_are_renamed_apart :
    let base := "\nclass Bar {} class Foo {}".toList
    let t := nestedTree "${helper}class Foo {}${endHelper}new Foo(${x})".toList
      "${helper}class Bar {}${endHelper}new Bar()".toList
    let x : Session (Synthesizer Document) Unit := Environment.apply t 2
    let d := (final x (fooSession base)).evaluator
    let ms := namings (Helper.fates base [] d.gathered.helpers)
    let snippet := "new Foo(new Bar())".toList
    outcome x (fooSession base) = .ok () ∧
      ms = [⟨"Bar".toList, "Bar2".toList⟩, ⟨"Foo".toList, "Foo2".toList⟩] ∧
      Code.mapIdentifiers (follow ms) snippet = Code.mapIdentifiers (simultaneous ms) snippet ∧
      d.text = ("new Foo2(new Bar2())".toList ++ base ++
        "\n\n// Snippet ID: i\nclass Bar2 {}\n\n// Snippet ID: o\nclass Foo2 {}".toList) := by
  intro base t x d ms snippet
  have hok : outcome x (fooSession base) = .ok () := by decide +kernel
  have hms : ms = [⟨"Bar".toList, "Bar2".toList⟩, ⟨"Foo".toList, "Foo2".toList⟩] := by
    decide +kernel
  have hresult : outcome (Environment.evaluate t 2 false) (fooSession base) = .ok snippet := by
    decide +kernel
  obtain ⟨result, before, after, hvalue, -, -, -, -, hapart⟩ :=
    helpers_rename_one_after_another hok
  cases Except.ok.inj (hvalue.symm.trans hresult)
  have htrim : trim snippet = snippet := by decide +kernel
  rw [htrim] at hapart
  refine ⟨hok, hms, (hapart ?_).mpr ?_, ?_⟩
  · change (ms.map (·.desired)).Nodup
    rw [hms]
    decide
  · change ms.Pairwise _
    rw [hms]
    simp
  · decide +kernel

/-- The class of the outer helper has the name that the inner helper has got, and the reference to
the inner class becomes one to the outer class. -/
theorem new_name_is_renamed_again :
    let base := "\n\nclass Foo {}".toList
    let t := nestedTree "${helper}class Foo2 {}${endHelper}new Foo2(${x})".toList
      "${helper}class Foo {}${endHelper}new Foo()".toList
    let x : Session (Synthesizer Document) Unit := Environment.apply t 2
    let d := (final x (fooSession base)).evaluator
    let ms := namings (Helper.fates base [] d.gathered.helpers)
    outcome x (fooSession base) = .ok () ∧
      ms = [⟨"Foo".toList, "Foo2".toList⟩, ⟨"Foo2".toList, "Foo22".toList⟩] ∧
      follow ms "Foo".toList = "Foo22".toList ∧
      d.text = ("new Foo22(new Foo22())".toList ++ base ++
        "\n\n// Snippet ID: i\nclass Foo2 {}\n\n// Snippet ID: o\nclass Foo22 {}".toList) := by
  refine ⟨?_, ?_, ?_, ?_⟩
  · decide +kernel
  · decide +kernel
  · decide +kernel
  · decide +kernel

end SnippetEngine
