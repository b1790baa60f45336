-- The free names of a walk. The search for one looks at no more candidates than there are names in
-- use, and one more. What it finds is reserved, and the names that are reserved stay so until the
-- walk ends, whichever effect it is in, so the free names of a walk are all different.
import SnippetEngine.Proofs.Document.Handouts

namespace SnippetEngine

open Session

/-! ## The names of a list of handouts -/

namespace Handout

def freeName? (h : Handout) : Option Text :=
  match h.request with
  | .loop => none
  | .free _ => some h.name

variable {declared : List Text} {hs : List Handout}

/-- Free names are reserved. A loop variable is reserved too where a free name takes its place. -/
theorem freeNames_sublist (hs : List Handout) :
    List.Sublist (hs.filterMap (·.freeName?)) (reserved hs) := by
  induction hs with
  | nil => exact .slnil
  | cons h hs ih =>
    have hcons : reserved (h :: hs) = reserved [h] ++ reserved hs := reserved_append [h] hs
    rcases h with ⟨node, _ | desired, scope, name⟩
    · rw [hcons]
      exact ih.trans (List.sublist_append_right _ _)
    · rw [hcons]
      exact ih.cons_cons name

theorem reserved_singleton_sublist (h : Handout) : List.Sublist (reserved [h]) [h.name] :=
  List.filter_sublist.map _

/-- A name is chosen among those that are neither declared nor reserved, so the reserved names are
all different. -/
theorem AreChosen.nodup_reserved (h : AreChosen declared hs) :
    (reserved hs).Nodup ∧ ∀ name ∈ reserved hs, name ∉ declared := by
  induction h with
  | nil => exact ⟨.nil, by simp [reserved]⟩
  | @snoc hs h _ hchosen ih =>
    have hfree := NameRequest.choose_not_mem (declared ++ h.scope.values ++ reserved hs) h.request
    rw [← hchosen] at hfree
    simp only [List.mem_append, not_or] at hfree
    have hlast : ∀ name ∈ reserved [h], name = h.name := fun name hname =>
      List.mem_singleton.mp ((reserved_singleton_sublist h).subset hname)
    rw [reserved_append]
    refine ⟨?_, fun name hname => ?_⟩
    · refine ih.1.append ((reserved_singleton_sublist h).nodup (List.nodup_singleton _)) ?_
      intro name hbefore hname
      rw [hlast name hname] at hbefore
      exact hfree.2 hbefore
    · rcases List.mem_append.mp hname with hbefore | hname
      · exact ih.2 name hbefore
      · rw [hlast name hname]
        exact hfree.1.1

end Handout

namespace Journal

theorem agree_evaluate (t : MatchTree) (n : NodeId) (overview : Bool) :
    Agree (SameCache IsOf) (SameCache IsOf) (Environment.evaluate t n overview)
      (Environment.evaluate t n overview) := by
  apply Session.agree_evaluate
  · rintro _ _ ⟨hcache, hdocument⟩
    exact ⟨hcache, congrArg Document.forget hdocument⟩
  · exact agreeOnPieces.agreeOn t

end Journal

/-! ## The search in a document -/

namespace Document

theorem length_namesInUse (d : Document) (scope : Bindings) : (d.namesInUse scope).length =
    d.declared.length + scope.length + d.gathered.reserved.length := by
  simp [namesInUse, Bindings.names, Bindings.values, Nat.add_assoc]

/-- The search for a free name ends with the first candidate that is not in use. -/
theorem run_freeName (d : Document) (scope : Bindings) (desired : Text) :
    ∃ k, 1 ≤ k ∧ k ≤ (d.namesInUse scope).length + 1 ∧
      FreeName.candidate desired k ∉ d.namesInUse scope ∧
      (∀ i, 1 ≤ i → i < k → FreeName.candidate desired i ∈ d.namesInUse scope) ∧
      FreeName.probe (fun _ => false) (d.namesInUse scope) desired k 1 =
        some (some (FreeName.candidate desired k)) ∧
      (freeName desired scope).run d =
        (FreeName.candidate desired k, d.reserve [FreeName.candidate desired k]) := by
  obtain ⟨k, hk, hname, hfree, hpassed⟩ := FreeName.first_eq_candidate (d.namesInUse scope) desired
  rw [hname] at hfree
  refine ⟨k, hk, FreeName.le_length_of_passed hpassed, hfree, hpassed, ?_, ?_⟩
  · rw [FreeName.probe_eq hk fun i hi hik => ⟨hpassed i hi hik, rfl⟩, FreeName.probe]
    exact if_neg (mt List.contains_iff_mem.mp hfree)
  · rw [← hname]
    rfl

end Document

/-- A free name is the first candidate that is not declared, not the value of a variable in scope and
not reserved. The search for it looks at one candidate more than there are such names, or at fewer,
and reserves what it finds. So the names that the free name formulas of an evaluation return are all
different, in whichever effects they stand and whatever names they desire, and none is declared. -/
theorem free_names_are_found_and_never_given_twice :
    (∀ (d : Document) (scope : Bindings) (desired : Text),
      ∃ k, 1 ≤ k ∧ k ≤ d.declared.length + scope.length + d.gathered.reserved.length + 1 ∧
        let name := FreeName.candidate desired k
        (name ∉ d.declared.names ∧ name ∉ scope.values ∧ name ∉ d.gathered.reserved) ∧
        (∀ i, 1 ≤ i → i < k → FreeName.candidate desired i ∈
          d.declared.names ++ scope.values ++ d.gathered.reserved) ∧
        FreeName.probe (fun _ => false) (d.declared.names ++ scope.values ++ d.gathered.reserved)
          desired k 1 = some (some name) ∧
        (Document.freeName desired scope).run d = (name, d.reserve [name])) ∧
    ∀ (t : MatchTree) (n : NodeId) (overview : Bool) (s : Synthesizer Document),
      let x : Session (Synthesizer Journal) Text := Environment.evaluate t n overview
      let y : Session (Synthesizer Document) Text := Environment.evaluate t n overview
      let u : Synthesizer Journal := { evaluator := { document := s.evaluator }, cache := s.cache }
      let names := (final x u).evaluator.handouts.filterMap (·.freeName?)
      outcome x u = outcome y s ∧ (final x u).evaluator.document = (final y s).evaluator ∧
        names.Nodup ∧ ∀ name ∈ names, name ∉ s.evaluator.declared.names := by
  constructor
  · intro d scope desired
    obtain ⟨k, hk, hlimit, hfree, hpassed, hprobe, hrun⟩ := d.run_freeName scope desired
    rw [d.length_namesInUse scope] at hlimit
    simp only [Document.namesInUse, List.mem_append, not_or] at hfree
    exact ⟨k, hk, hlimit, ⟨hfree.1.1, hfree.1.2, hfree.2⟩, hpassed, hprobe, hrun⟩
  · intro t n overview s x y u names
    obtain ⟨hout, -, hdocument⟩ := Journal.agree_evaluate t n overview u s ⟨rfl, rfl⟩
    obtain ⟨hnodup, hundeclared⟩ := (Journal.isSound_evaluate t n overview u).chosen.nodup_reserved
    have hsublist := Handout.freeNames_sublist (final x u).evaluator.handouts
    exact ⟨hout, hdocument, hsublist.nodup hnodup, fun name hname =>
      hundeclared name (hsublist.subset hname)⟩

/-- A numbered name is not given again where a later formula desires it without its number. -/
example :
    let t := nestedTree "${freeName(a2)} ${x} ${freeName(a)}".toList "${freeName(a)}".toList
    outcome (Environment.evaluate t 2 false) blankSession = .ok "a2 a a3".toList := by
  decide +kernel

end SnippetEngine
