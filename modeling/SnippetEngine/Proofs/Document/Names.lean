-- The names that formulas ask for. A formula wants a loop variable or a free name, and gets the
-- first one that is not in use. A free name is reserved; a loop variable is one of a few letters, and
-- is reserved only if there is no letter left and a free name takes its place.
import SnippetEngine.Proofs.Document.Evaluation
import SnippetEngine.Proofs.FreeName

namespace SnippetEngine

open Text

/-! ## Requests -/

inductive NameRequest
  | loop
  | free (desired : Text)
  deriving DecidableEq

/-- The name that a formula asks for. A variable with the name of a formula hides it. -/
def Formula.request? (f : Formula) (scope : Bindings) : Option NameRequest :=
  match f.arguments with
  | [] => if scope.value? f.name = none ∧ f.name = "iter".toList then some .loop else none
  | argument :: _ => if f.name = "freeName".toList then some (.free (trim argument)) else none

namespace NameRequest

/-- The name that is handed out when these names are in use. -/
def choose (inUse : List Text) : NameRequest → Text
  | loop => ((Document.loopNames.find? fun name => !inUse.contains name).getD
      (FreeName.first inUse ['i']))
  | free desired => FreeName.first inUse desired

/-- True if the name is not handed out again: a free name, also one in place of a letter. -/
def reserves (name : Text) : NameRequest → Bool
  | loop => !Document.loopNames.contains name
  | free _ => true

variable {inUse : List Text} {q : NameRequest} {name desired : Text}

theorem first_not_mem (inUse : List Text) (desired : Text) :
    FreeName.first inUse desired ∉ inUse := by
  obtain ⟨_, _, _, hfree, _⟩ := FreeName.first_eq_candidate inUse desired
  exact hfree

theorem find?_eq_some_iff_takeWhile {p : Text → Bool} {names : List Text} :
    names.find? p = some name ↔
      p name = true ∧ name ∈ names ∧ ∀ other ∈ names.takeWhile (· != name), p other = false := by
  induction names with
  | nil => simp
  | cons l names ih =>
    by_cases hl : l = name
    · subst hl
      by_cases hp : p l = true
      · simp [hp]
      · refine iff_of_false (fun hfind => hp (List.find?_some hfind)) fun h => hp h.1
    · by_cases hp : p l = true
      · simp [hp, hl]
      · rw [List.find?_cons_of_neg hp, ih, List.takeWhile_cons_of_pos (by simpa using hl)]
        simp [Ne.symm hl, hp]

/-- A loop variable is the first letter that is not in use. Without one it is a free name. -/
theorem choose_loop_cases (inUse : List Text) :
    (∃ name ∈ Document.loopNames, name ∉ inUse ∧ choose inUse loop = name ∧
      Document.loopNames.find? (fun name => !inUse.contains name) = some name) ∨
    (∀ name ∈ Document.loopNames, name ∈ inUse) ∧
      choose inUse loop = FreeName.first inUse ['i'] ∧
      Document.loopNames.find? (fun name => !inUse.contains name) = none := by
  unfold choose
  rcases hfind : Document.loopNames.find? fun name => !inUse.contains name with _ | name
  · refine .inr ⟨fun name hname => ?_, rfl, rfl⟩
    simpa using List.find?_eq_none.mp hfind name hname
  · refine .inl ⟨name, List.mem_of_find?_eq_some hfind, ?_, rfl, rfl⟩
    simpa using List.find?_some hfind

theorem choose_not_mem (inUse : List Text) (q : NameRequest) : q.choose inUse ∉ inUse := by
  cases q with
  | loop =>
    obtain ⟨name, -, hfree, hname, -⟩ | ⟨-, hname, -⟩ := choose_loop_cases inUse
    · rw [hname]
      exact hfree
    · rw [hname]
      exact first_not_mem inUse ['i']
  | free desired => exact first_not_mem inUse desired

/-- The letters of the loop variables are not numbered names. -/
theorem eq_desired_of_candidate {k : Nat} (hname : name ∈ Document.loopNames)
    (h : name = FreeName.candidate desired k) : desired = name := by
  have hletters : Document.loopNames.all (!·.getLast?.any Char.isDigit) = true := by decide
  exact FreeName.eq_desired_of_candidate (by simpa using List.all_eq_true.mp hletters name hname) h

/-- A letter that is not in use is what the request gets: it wants that very name, or it wants a
loop variable and the letters before are in use. -/
def Wants (inUse : List Text) (name : Text) : NameRequest → Prop
  | loop => ∀ other ∈ Document.loopNames.takeWhile (· != name), other ∈ inUse
  | free desired => desired = name

theorem choose_eq_iff (hname : name ∈ Document.loopNames) :
    q.choose inUse = name ↔ name ∉ inUse ∧ q.Wants inUse name := by
  cases q with
  | loop =>
    have hfind : choose inUse loop = name ↔
        Document.loopNames.find? (fun name => !inUse.contains name) = some name := by
      obtain ⟨other, -, -, hchoose, hfirst⟩ | ⟨hall, hchoose, hfirst⟩ := choose_loop_cases inUse
      · rw [hchoose, hfirst, Option.some.injEq]
      · rw [hchoose, hfirst]
        refine iff_of_false ?_ (by simp)
        rintro rfl
        exact first_not_mem inUse ['i'] (hall _ hname)
    rw [hfind, find?_eq_some_iff_takeWhile]
    simp [hname, Wants]
  | free desired =>
    change FreeName.first inUse desired = name ↔ _
    obtain ⟨j, hj, hcandidate, hfree, hpassed⟩ := FreeName.first_eq_candidate inUse desired
    constructor
    · rintro rfl
      exact ⟨hfree, eq_desired_of_candidate hname hcandidate⟩
    · rintro ⟨hnew, rfl⟩
      rcases Nat.eq_or_lt_of_le hj with rfl | hlt
      · exact hcandidate
      · exact absurd (hpassed 1 (Nat.le_refl 1) hlt) hnew

theorem reserves_loop (h : ∀ name ∈ Document.loopNames, name ∈ inUse) :
    loop.reserves (FreeName.first inUse ['i']) = true := by
  unfold reserves
  simpa using fun hname => first_not_mem inUse ['i'] (h _ hname)

end NameRequest

/-! ## One formula -/

namespace Document

/-- The document with the names reserved, besides those that were before. -/
def reserve (names : List Text) (d : Document) : Document :=
  { d with gathered := { d.gathered with reserved := d.gathered.reserved ++ names } }

theorem reserve_nil (d : Document) : d.reserve [] = d := by
  unfold reserve
  rw [List.append_nil]

def handOut (scope : Bindings) : NameRequest → StateM Document Text
  | .loop => loopName scope
  | .free desired => freeName desired scope

theorem run_handOut (scope : Bindings) (q : NameRequest) (d : Document) :
    (handOut scope q).run d =
      let name := q.choose (d.namesInUse scope)
      (name, d.reserve (if q.reserves name then [name] else [])) := by
  cases q with
  | free desired => rfl
  | loop =>
    unfold handOut
    rw [loopName_eq]
    change StateT.run ((loopNames.find? fun name => !(d.namesInUse scope).contains name).elim
      (freeName ['i'] scope) pure) d = _
    obtain ⟨name, hname, -, hchoose, hfind⟩ | ⟨hall, hchoose, hfind⟩ :=
      NameRequest.choose_loop_cases (d.namesInUse scope)
    · rw [hfind, hchoose]
      have hreserves : NameRequest.loop.reserves name = false := by
        simpa [NameRequest.reserves] using hname
      simp only [hreserves]
      exact congrArg (Prod.mk name) (reserve_nil d).symm
    · rw [hfind, hchoose]
      simp only [NameRequest.reserves_loop hall]
      rfl

theorem computed_of_request {site : Site} {scope : Bindings} {f : Formula} {q : NameRequest}
    (h : f.request? scope = some q) : computed site scope f = handOut scope q := by
  rcases f with ⟨name, _ | ⟨argument, rest⟩, capture⟩
  · change (if scope.value? name = none ∧ name = "iter".toList then _ else _) = some q at h
    split at h
    next hiter =>
      obtain ⟨hunbound, rfl⟩ := hiter
      cases h
      change valueOf site scope "iter".toList = loopName scope
      unfold valueOf
      rw [hunbound]
      exact (if_neg (by decide)).trans ((if_neg (by decide)).trans (if_pos rfl))
    next => cases h
  · change (if name = "freeName".toList then _ else _) = some q at h
    split at h
    next hfree =>
      subst hfree
      cases h
      change resultOf site scope "freeName".toList (trim argument) = freeName (trim argument) scope
      unfold resultOf
      rw [if_neg (by decide), if_neg (by decide), if_neg (by decide), if_pos rfl]
    next => cases h

end Document

end SnippetEngine
