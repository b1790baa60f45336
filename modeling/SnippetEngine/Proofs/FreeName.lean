-- How the search for a free name goes on and ends. It looks at the candidates one after another, and
-- each one that it passes is in use, so it ends before it has looked at more candidates than there
-- are names in use, or at the next one.
import Mathlib.Data.List.Nodup
import Mathlib.Data.Nat.Find
import SnippetEngine.FreeName

namespace SnippetEngine.FreeName

variable {settles : Text → Bool} {inUse : List Text} {desired name : Text} {k : Nat}

/-! ## Candidates -/

/-- A numbered candidate ends with a digit. -/
theorem eq_desired_of_candidate (hname : name.getLast?.any Char.isDigit = false)
    (h : name = candidate desired k) : desired = name := by
  unfold candidate at h
  split at h
  · exact h.symm
  · obtain ⟨c, hc⟩ : ∃ c, (Text.decimal k).getLast? = some c :=
      Option.ne_none_iff_exists'.mp (by simp [Text.decimal])
    have hlast : name.getLast? = some c := by
      rw [h, List.getLast?_append, hc]
      rfl
    have hdigit : c.isDigit = true :=
      Nat.isDigit_of_mem_toDigits (by decide) (by decide) (List.mem_of_getLast? hc)
    rw [hlast, Option.any_some, hdigit] at hname
    cases hname

theorem le_length_of_passed (h : ∀ i, 1 ≤ i → i < k → candidate desired i ∈ inUse) :
    k ≤ inUse.length + 1 := by
  have hnodup : ((List.range' 1 (k - 1)).map (candidate desired)).Nodup := by
    refine List.Nodup.map_on (fun i hi j hj he => ?_) List.nodup_range'
    exact candidate_injective (List.mem_range'_1.mp hi).1 (List.mem_range'_1.mp hj).1 he
  have hsubset : (List.range' 1 (k - 1)).map (candidate desired) ⊆ inUse := by
    intro name hname
    obtain ⟨i, hi, rfl⟩ := List.mem_map.mp hname
    obtain ⟨hi, hik⟩ := List.mem_range'_1.mp hi
    exact h i hi (by omega)
  have hlength := hnodup.length_le_of_subset hsubset
  rw [List.length_map, List.length_range'] at hlength
  omega

/-! ## One candidate after another -/

/-- Looks at `limit` candidates at most, from number `k` on. None if the search goes on behind them,
and else what it ends with. -/
def probe (settles : Text → Bool) (inUse : List Text) (desired : Text) :
    (limit k : Nat) → Option (Option Text)
  | 0, _ => none
  | limit + 1, k =>
    let name := candidate desired k
    if inUse.contains name then
      if settles name then some none else probe settles inUse desired limit (k + 1)
    else some (some name)

theorem probe_add {m : Nat} (limit : Nat) (h : ∀ i, k ≤ i → i < k + m →
    candidate desired i ∈ inUse ∧ settles (candidate desired i) = false) :
    probe settles inUse desired (m + limit) k = probe settles inUse desired limit (k + m) := by
  induction m generalizing k with
  | zero => rw [Nat.zero_add, Nat.add_zero]
  | succ m ih =>
    obtain ⟨hc, hs⟩ := h k (Nat.le_refl k) (by omega)
    rw [Nat.add_right_comm, probe]
    simp only [List.contains_iff_mem.mpr hc, hs, if_true, Bool.false_eq_true, if_false]
    rw [ih fun i hi him => h i (by omega) (by omega)]
    congr 1
    omega

theorem probe_eq (hk : 1 ≤ k) (h : ∀ i, 1 ≤ i → i < k →
    candidate desired i ∈ inUse ∧ settles (candidate desired i) = false) :
    probe settles inUse desired k 1 = probe settles inUse desired 1 k := by
  obtain ⟨m, rfl⟩ := Nat.exists_eq_add_of_le' hk
  rw [probe_add 1 fun i hi him => h i hi (by omega), Nat.add_comm 1 m]

/-- A search that names in use may settle finds the first candidate that is free or settles it. -/
theorem search_eq_first (hsettles : ∀ name, settles name = true → name ∈ inUse) (desired : Text) :
    search settles inUse desired 1 =
      if settles (first (inUse.filter (!settles ·)) desired) then none
      else some (first (inUse.filter (!settles ·)) desired) := by
  obtain ⟨j, hj, hname, hfree, hpassed⟩ := first_eq_candidate (inUse.filter (!settles ·)) desired
  have hinUse : ∀ i, 1 ≤ i → i < j →
      candidate desired i ∈ inUse ∧ settles (candidate desired i) = false := by
    intro i hi hij
    simpa using hpassed i hi hij
  -- both pass the candidates before the `j`-th, which are in use and settle nothing
  rw [hname] at hfree ⊢
  split
  next hs =>
    refine (search_eq_none (Nat.le_refl 1)).mpr ⟨j, hj, fun i hi hij => ?_, hs⟩
    rcases Nat.lt_or_eq_of_le hij with hlt | rfl
    · exact (hinUse i hi hlt).1
    · exact hsettles _ hs
  next hs =>
    have hnew : candidate desired j ∉ inUse := by
      intro hu
      apply hfree
      simpa using ⟨hu, by simpa using hs⟩
    rcases hsearch : search settles inUse desired 1 with _ | name
    · obtain ⟨k, hk, hused, hk'⟩ := (search_eq_none (Nat.le_refl 1)).mp hsearch
      rcases Nat.lt_or_ge k j with hlt | hge
      · rw [(hinUse k hk hlt).2] at hk'
        cases hk'
      · exact absurd (hused j hj hge) hnew
    · obtain ⟨k, hk, rfl, hfree', hpassed'⟩ := search_eq_some (Nat.le_refl 1) hsearch
      rcases Nat.lt_trichotomy k j with hlt | rfl | hgt
      · exact absurd (hinUse k hk hlt).1 hfree'
      · rfl
      · exact absurd (hpassed' j hj hgt).1 hnew

end SnippetEngine.FreeName
