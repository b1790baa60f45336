-- Names that are not in use: the desired name itself, or the first of `name2`, `name3`, ... that
-- is free. Main statement: the search finds the first candidate that is not in use, and it always
-- finds one.
import SnippetEngine.Text.Basic

namespace SnippetEngine.FreeName

/-! ## Candidates -/

/-- The candidate number `k`, counted from 1: the desired name, then the name with its number. -/
def candidate (desired : Text) (k : Nat) : Text :=
  if k ≤ 1 then desired else desired ++ Text.decimal k

theorem candidate_injective {desired : Text} {j k : Nat} (hj : 1 ≤ j) (hk : 1 ≤ k)
    (h : candidate desired j = candidate desired k) : j = k := by
  unfold candidate at h
  split at h <;> split at h
  · omega
  · simp [Text.decimal] at h
  · simp [Text.decimal] at h
  · have := congrArg (Nat.ofDigitChars 10 · 0) (List.append_cancel_left h)
    simpa [Text.decimal] using this

/-! ## The search -/

/-- The names other than `name`. -/
def without (name : Text) (names : List Text) : List Text := names.filter (· != name)

@[simp] theorem mem_without {name other : Text} {names : List Text} :
    other ∈ without name names ↔ other ∈ names ∧ other ≠ name := by
  simp [without]

theorem length_without_lt {name : Text} {names : List Text} (h : name ∈ names) :
    (without name names).length < names.length := by
  rw [without, List.length_filter_lt_length_iff_exists]
  exact ⟨name, h, by simp⟩

/-- The first candidate from number `k` on that is not in use. The search gives up at a candidate
in use that `settles` it. A candidate that was passed is not looked for again, so the names in
use bound the search. -/
def search (settles : Text → Bool) (inUse : List Text) (desired : Text) (k : Nat) : Option Text :=
  let name := candidate desired k
  if _h : name ∈ inUse then
    if settles name then none
    else search settles (without name inUse) desired (k + 1)
  else some name
termination_by inUse.length
decreasing_by exact length_without_lt _h

/-- The first candidate that is not in use. -/
def first (inUse : List Text) (desired : Text) : Text :=
  (search (fun _ => false) inUse desired 1).getD desired

/-! ## What the search finds -/

/-- The search passes the candidates in use that do not settle it, and no others. -/
theorem search_eq_some {settles : Text → Bool} {inUse : List Text} {desired name : Text} {k : Nat}
    (hk : 1 ≤ k) (h : search settles inUse desired k = some name) :
    ∃ j, k ≤ j ∧ name = candidate desired j ∧ name ∉ inUse ∧
      ∀ i, k ≤ i → i < j → candidate desired i ∈ inUse ∧ settles (candidate desired i) = false := by
  fun_induction search settles inUse desired k with
  | case1 => cases h
  | case2 inUse k c hc hs ih =>
    obtain ⟨j, hj, hname, hfree, hpassed⟩ := ih (by omega) h
    refine ⟨j, by omega, hname, fun hu => hfree (mem_without.mpr ⟨hu, ?_⟩), fun i hi hij => ?_⟩
    · rintro rfl
      have := candidate_injective (by omega) (by omega) hname
      omega
    · rcases Nat.eq_or_lt_of_le hi with rfl | hlt
      · exact ⟨hc, by simpa using hs⟩
      · have := hpassed i hlt hij
        exact ⟨(mem_without.mp this.1).1, this.2⟩
  | case3 inUse k c hc =>
    have hname := Option.some.inj h
    exact ⟨k, Nat.le_refl k, hname.symm, hname ▸ hc, fun i hi hik => by omega⟩

theorem search_isSome (inUse : List Text) (desired : Text) (k : Nat) :
    (search (fun _ => false) inUse desired k).isSome := by
  fun_induction search (fun _ => false) inUse desired k with
  | case1 _ _ _ _ hs => cases hs
  | case2 _ _ _ _ _ ih => exact ih
  | case3 => rfl

/-- The first free candidate is free, and those before it are in use. -/
theorem first_eq_candidate (inUse : List Text) (desired : Text) :
    ∃ j, 1 ≤ j ∧ first inUse desired = candidate desired j ∧ first inUse desired ∉ inUse ∧
      ∀ i, 1 ≤ i → i < j → candidate desired i ∈ inUse := by
  obtain ⟨name, h⟩ := Option.isSome_iff_exists.mp (search_isSome inUse desired 1)
  obtain ⟨j, hj, hname, hfree, hpassed⟩ := search_eq_some (Nat.le_refl 1) h
  have hfirst : first inUse desired = name := by rw [first, h]; rfl
  rw [hfirst]
  exact ⟨j, hj, hname, hfree, fun i hi hij => (hpassed i hi hij).1⟩

/-- The search gives up exactly if candidates in use lead to one that settles it. -/
theorem search_eq_none {settles : Text → Bool} {inUse : List Text} {desired : Text} {k : Nat}
    (hk : 1 ≤ k) : search settles inUse desired k = none ↔
      ∃ j, k ≤ j ∧ (∀ i, k ≤ i → i ≤ j → candidate desired i ∈ inUse) ∧
        settles (candidate desired j) = true := by
  fun_induction search settles inUse desired k with
  | case1 inUse k name hc hs =>
    refine iff_of_true rfl ⟨k, Nat.le_refl k, fun i hi hik => ?_, hs⟩
    rw [Nat.le_antisymm hik hi]
    exact hc
  | case2 inUse k name hc hs ih =>
    rw [ih (by omega)]
    constructor
    · rintro ⟨j, hj, hused, hsettles⟩
      refine ⟨j, by omega, fun i hi hij => ?_, hsettles⟩
      rcases Nat.eq_or_lt_of_le hi with rfl | hlt
      · exact hc
      · exact (mem_without.mp (hused i hlt hij)).1
    · rintro ⟨j, hj, hused, hsettles⟩
      have hne : j ≠ k := by
        rintro rfl
        exact hs hsettles
      refine ⟨j, by omega, fun i hi hij => mem_without.mpr ⟨hused i (by omega) hij, ?_⟩, hsettles⟩
      intro hname
      have := candidate_injective (by omega) (by omega) hname
      omega
  | case3 inUse k name hc =>
    refine iff_of_false (by simp) ?_
    rintro ⟨j, hj, hused, _⟩
    exact hc (hused k (Nat.le_refl k) hj)

/-- Only which names are in use counts, not in which order or how often they are listed. -/
theorem search_congr (settles : Text → Bool) {inUse others : List Text} (desired : Text) (k : Nat)
    (h : ∀ name, name ∈ inUse ↔ name ∈ others) :
    search settles inUse desired k = search settles others desired k := by
  fun_induction search settles inUse desired k generalizing others with
  | case1 inUse k name hc =>
    rename_i hs
    rw [search, dif_pos ((h _).mp hc), if_pos hs]
  | case2 inUse k name hc hs =>
    rename_i ih
    rw [search.eq_1 settles others, dif_pos ((h _).mp hc), if_neg hs]
    apply ih
    intro other
    rw [mem_without, mem_without, h]
  | case3 inUse k name =>
    rename_i hc
    rw [search, dif_neg (mt (h _).mpr hc)]

theorem first_congr {inUse others : List Text} (desired : Text)
    (h : ∀ name, name ∈ inUse ↔ name ∈ others) : first inUse desired = first others desired := by
  unfold first
  rw [search_congr _ desired 1 h]

end SnippetEngine.FreeName
