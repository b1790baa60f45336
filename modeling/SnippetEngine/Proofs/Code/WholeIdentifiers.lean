-- Code as its identifiers and the single characters between them. A renaming looks for the old name
-- among all characters and turns down an occurrence that goes on at one of its ends. What is turned
-- down never hides a whole identifier, so in the end one part after another is replaced.
import Mathlib.Data.List.SplitBy
import SnippetEngine.Proofs.Code.Identifiers

namespace SnippetEngine.Code

open Text

/-- The code cut wherever not both neighbours are characters of an identifier. -/
def parts (code : Text) : List Text :=
  code.splitBy fun c d => isIdentifierChar c && isIdentifierChar d

/-- The parts are identifiers and single characters of none, and no identifier goes on in the next
part. -/
structure IsCut (code : Text) (ps : List Text) : Prop where
  flatten_eq : ps.flatten = code
  run_or_single : ∀ p ∈ ps, IsRun p ∨ ∃ c, isIdentifierChar c = false ∧ p = [c]
  maximal : ps.IsChain fun p q => ¬ (IsRun p ∧ IsRun q)

variable {code name old rest : Text} {ps : List Text}

/-! ## Parts, identifier by identifier -/

@[simp] theorem parts_nil : parts [] = [] := rfl

theorem parts_cons {c : Char} (hc : isIdentifierChar c = false) (r : Text) :
    parts (c :: r) = [c] :: parts r := by
  have happend : parts ([c] ++ r) = parts [c] ++ parts r := List.splitBy_append (by simp [hc])
  exact happend

theorem parts_run (hname : IsRun name) (hrest : isEdge rest.head? = true) :
    parts (name ++ rest) = name :: parts rest := by
  have hchain : name.IsChain fun c d => (isIdentifierChar c && isIdentifierChar d) = true :=
    List.Pairwise.isChain <| List.pairwise_of_forall_mem_list fun c hc d hd => by
      rw [hname.all c hc, hname.all d hd, Bool.and_true]
  have hedge : ∀ c ∈ name.getLast?, ∀ d ∈ rest.head?,
      (isIdentifierChar c && isIdentifierChar d) = false := by
    intro c _ d hd
    rw [hd, isEdge_some] at hrest
    rw [hrest, Bool.and_false]
  unfold parts
  rw [List.splitBy_append hedge, List.splitBy_of_isChain hname.ne_nil hchain]
  rfl

theorem not_isRun_singleton {c : Char} (hc : isIdentifierChar c = false) : ¬ IsRun [c] := by
  intro h
  rw [h.all c List.mem_cons_self] at hc
  cases hc

theorem isCut_parts (code : Text) : IsCut code (parts code) := by
  induction code using identifier_induction with
  | nil => exact ⟨rfl, by simp, .nil⟩
  | other c r hc ih =>
    rw [parts_cons hc]
    exact ⟨by simp [ih.flatten_eq], List.forall_mem_cons.mpr ⟨.inr ⟨c, hc, rfl⟩, ih.run_or_single⟩,
      List.isChain_cons.mpr ⟨fun _ _ h => not_isRun_singleton hc h.1, ih.maximal⟩⟩
  | run name rest hname hrest ih =>
    rw [parts_run hname hrest]
    refine ⟨by simp [ih.flatten_eq], List.forall_mem_cons.mpr ⟨.inl hname, ih.run_or_single⟩,
      List.isChain_cons.mpr ⟨fun q hq h => ?_, ih.maximal⟩⟩
    -- behind an identifier comes a character of none
    rcases rest with _ | ⟨c, r⟩
    · cases hq
    · have hc := isEdge_head?_cons.mp hrest
      rw [parts_cons hc] at hq
      cases hq
      exact not_isRun_singleton hc h.2

theorem IsCut.eq_parts (h : IsCut code ps) : ps = parts code := by
  obtain ⟨rfl, hsound, hchain⟩ := h
  induction ps with
  | nil => rfl
  | cons p ps ih =>
    rw [List.forall_mem_cons] at hsound
    rw [List.isChain_cons] at hchain
    rw [List.flatten_cons]
    rcases hsound.1 with hrun | ⟨c, hc, rfl⟩
    · have hedge : isEdge ps.flatten.head? = true := by
        rcases ps with _ | ⟨q, ps⟩
        · rfl
        · have hq : ¬ IsRun q := fun hq => hchain.1 q rfl ⟨hrun, hq⟩
          obtain ⟨c, hc, rfl⟩ := (hsound.2 q List.mem_cons_self).resolve_left hq
          exact isEdge_some.mpr hc
      rw [parts_run hrun hedge, ← ih hsound.2 hchain.2]
    · rw [List.singleton_append, parts_cons hc, ← ih hsound.2 hchain.2]

/-- There is one way to cut code into its identifiers and the characters between them. -/
theorem isCut_iff : IsCut code ps ↔ ps = parts code :=
  ⟨IsCut.eq_parts, fun h => h ▸ isCut_parts code⟩

theorem mem_parts_iff (hname : IsRun name) : name ∈ parts code ↔ name ∈ identifiers code := by
  induction code using identifier_induction with
  | nil => simp
  | other c r hc ih =>
    have hne : name ≠ [c] := fun h => not_isRun_singleton hc (h ▸ hname)
    rw [parts_cons hc, identifiers_cons hc, List.mem_cons, or_iff_right hne, ih]
  | run run rest hrun hrest ih =>
    rw [parts_run hrun hrest, identifiers_run hrun hrest, List.mem_cons, List.mem_cons, ih]

/-- A map on identifiers goes part by part if it leaves single characters of none. -/
theorem mapIdentifiers_eq_flatten {f : Text → Text}
    (hf : ∀ c, isIdentifierChar c = false → f [c] = [c]) (code : Text) :
    mapIdentifiers f code = ((parts code).map f).flatten := by
  induction code using identifier_induction with
  | nil => simp
  | other c r hc ih => simp [mapIdentifiers_cons hc, parts_cons hc, hf c hc, ih]
  | run name rest hname hrest ih => simp [mapIdentifiers_run hname hrest, parts_run hname hrest, ih]

/-! ## Renaming -/

theorem intercalate_append_cons (sep s t : Text) (ts : List Text) :
    sep.intercalate ((s ++ t) :: ts) = s ++ sep.intercalate (t :: ts) := by
  cases ts with
  | nil => simp
  | cons u ts => simp

/-- Where parts are replaced by another text, what stands between them is put together as it was. -/
theorem flatten_map_replace (old new : Text) (ps : List Text) :
    (ps.map fun part => if part = old then new else part).flatten =
      new.intercalate ((ps.splitOn old).map List.flatten) := by
  induction ps with
  | nil => simp [List.splitOn_eq_splitOnP]
  | cons p ps ih =>
    obtain ⟨gap, gaps, hgaps⟩ := List.exists_cons_of_ne_nil (List.splitOn_ne_nil old ps)
    rw [List.map_cons, List.flatten_cons, ih, hgaps]
    rw [List.splitOn_eq_splitOnP] at hgaps ⊢
    rw [List.splitOnP_cons_eq_if_modifyHead, hgaps]
    by_cases hp : p = old
    · simp [hp]
    · simp [hp, intercalate_append_cons]

/-- A renaming replaces the parts that are the old name. -/
theorem rename_eq_flatten (hold : IsRun old) (new code : Text) :
    rename old new code =
      ((parts code).map fun part => if part = old then new else part).flatten := by
  rw [rename_eq_mapIdentifiers new hold, mapIdentifiers_eq_flatten]
  intro c hc
  have hne : [c] ≠ old := fun h => not_isRun_singleton hc (h ▸ hold)
  rw [if_neg hne]

/-- A renaming to a name that the code has nowhere can be taken back. -/
theorem rename_rename {new : Text} (hold : IsRun old) (hnew : IsRun new)
    (h : new ∉ identifiers code) : rename new old (rename old new code) = code := by
  have hrename : ∀ name, IsRun name → IsRun (if name = old then new else name) :=
    fun _ hname => hname.replace hnew
  rw [rename_eq_mapIdentifiers new hold, rename_eq_mapIdentifiers old hnew,
    mapIdentifiers_mapIdentifiers hrename]
  refine Eq.trans (mapIdentifiers_congr fun name hname => ?_) (mapIdentifiers_id code)
  have hne : name ≠ new := fun heq => h (heq ▸ hname)
  by_cases heq : name = old
  · simp [heq]
  · simp [heq, hne]

/-- A renaming replaces whole identifiers: the code has one cut into its identifiers and the
characters between them, and the parts that are the old name become the new one, whatever text that
is. So what stands between them is kept in its order, and a name that the code has nowhere can be
renamed back. -/
theorem renamings_replace_whole_identifiers (hold : IsRun old) (code : Text) :
    (∀ ps, IsCut code ps ↔ ps = parts code) ∧
    (∀ new, rename old new code =
      ((parts code).map fun part => if part = old then new else part).flatten) ∧
    (∀ new, IsRun new → new ∉ parts code → rename new old (rename old new code) = code) ∧
    ∃ gaps : List Text, gaps = ((parts code).splitOn old).map List.flatten ∧
      code = old.intercalate gaps ∧ ∀ new, rename old new code = new.intercalate gaps := by
  refine ⟨fun ps => isCut_iff, fun new => rename_eq_flatten hold new code, ?_, _, rfl, ?_, ?_⟩
  · intro new hnew hmem
    exact rename_rename hold hnew (mt (mem_parts_iff hnew).mpr hmem)
  · have hself : ∀ part : Text, (if part = old then old else part) = part :=
      fun part => ite_eq_right_iff.mpr Eq.symm
    calc code = (parts code).flatten := (isCut_parts code).flatten_eq.symm
      _ = ((parts code).map fun part => if part = old then old else part).flatten := by
        simp only [hself, List.map_id']
      _ = old.intercalate (((parts code).splitOn old).map List.flatten) :=
        flatten_map_replace old old _
  · intro new
    rw [rename_eq_flatten hold new code, flatten_map_replace]

/-- Names that overlap themselves, next to each other, and next to letters of several bytes. -/
theorem overlapping_name_is_renamed_and_back :
    let code := "aa.aa aaa éaa aa_ aaaa$ (aa)".toList
    let renamed := "b.b aaa éaa aa_ aaaa$ (b)".toList
    IsRun "aa".toList ∧ IsRun "b".toList ∧ "b".toList ∉ parts code ∧
      rename "aa".toList "b".toList code = renamed ∧
      rename "b".toList "aa".toList renamed = code := by
  intro code renamed
  have hold : IsRun "aa".toList := ⟨by decide, List.all_eq_true.mp (by decide)⟩
  have hnew : IsRun "b".toList := ⟨by decide, List.all_eq_true.mp (by decide)⟩
  have hmem : "b".toList ∉ parts code := by decide +kernel
  obtain ⟨-, hrename, hback, -⟩ := renamings_replace_whole_identifiers hold code
  have hrenamed : rename "aa".toList "b".toList code = renamed :=
    (hrename "b".toList).trans (by decide +kernel)
  have hcode := hback "b".toList hnew hmem
  rw [hrenamed] at hcode
  exact ⟨hold, hnew, hmem, hrenamed, hcode⟩

end SnippetEngine.Code
