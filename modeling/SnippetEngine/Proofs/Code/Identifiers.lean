-- The identifiers of code are its maximal runs of identifier characters. A renaming goes from
-- occurrence to occurrence of the old name, and what it comes to is a map on identifiers: those
-- that are the old name become the new one, and the code between them stays. So renamings one after
-- another take each identifier on its own through all of them.
import SnippetEngine.Proofs.Code.Classes
import SnippetEngine.FreeName

namespace SnippetEngine.Code

open Text

/-- A text that can stand as an identifier. -/
structure IsRun (name : Text) : Prop where
  ne_nil : name ≠ []
  all : ∀ c ∈ name, isIdentifierChar c = true

/-- An identifier put in the place of another one leaves identifiers only. -/
theorem IsRun.replace {name old new : Text} (hname : IsRun name) (hnew : IsRun new) :
    IsRun (if name = old then new else name) := by
  split
  · exact hnew
  · exact hname

/-- The identifiers of the code, from left to right. -/
def identifiers : Text → List Text
  | [] => []
  | c :: r =>
    if isIdentifierChar c then
      (c :: r.takeWhile isIdentifierChar) :: identifiers (r.dropWhile isIdentifierChar)
    else identifiers r
termination_by code => code.length
decreasing_by
  · have := (List.dropWhile_sublist isIdentifierChar (l := r)).length_le
    simp only [List.length_cons]
    omega
  · simp

/-- The code with `f` applied to each of its identifiers. -/
def mapIdentifiers (f : Text → Text) : Text → Text
  | [] => []
  | c :: r =>
    if isIdentifierChar c then
      f (c :: r.takeWhile isIdentifierChar) ++ mapIdentifiers f (r.dropWhile isIdentifierChar)
    else c :: mapIdentifiers f r
termination_by code => code.length
decreasing_by
  · have := (List.dropWhile_sublist isIdentifierChar (l := r)).length_le
    simp only [List.length_cons]
    omega
  · simp

/-! ## Code, identifier by identifier -/

theorem isEdge_some {c : Char} : isEdge (some c) = true ↔ isIdentifierChar c = false := by
  simp [isEdge]

theorem isEdge_head?_cons {c : Char} {r : Text} :
    isEdge (c :: r).head? = true ↔ isIdentifierChar c = false := isEdge_some

/-- Code is put together from characters of no identifier, and from identifiers that end at an edge.
-/
theorem identifier_induction {motive : Text → Prop} (nil : motive [])
    (other : ∀ c r, isIdentifierChar c = false → motive r → motive (c :: r))
    (run : ∀ name rest, IsRun name → isEdge rest.head? = true → motive rest → motive (name ++ rest))
    (code : Text) : motive code := by
  fun_induction identifiers code with
  | case1 => exact nil
  | case2 c r hc ih =>
    have hcode : c :: r = (c :: r.takeWhile isIdentifierChar) ++ r.dropWhile isIdentifierChar := by
      rw [List.cons_append, List.takeWhile_append_dropWhile]
    rw [hcode]
    apply run _ _ ⟨List.cons_ne_nil _ _, ?_⟩ ?_ ih
    · intro d hd
      rcases List.mem_cons.mp hd with rfl | hd
      · exact hc
      · exact List.all_eq_true.mp List.all_takeWhile d hd
    · have := List.head?_dropWhile_not isIdentifierChar r
      rcases hrest : r.dropWhile isIdentifierChar with _ | ⟨d, s⟩
      · rfl
      · rw [hrest] at this
        rw [isEdge_head?_cons]
        simpa using this
  | case3 c r hc ih => exact other c r (by simpa using hc) ih

variable {name rest : Text}

theorem takeWhile_run (hname : ∀ c ∈ name, isIdentifierChar c = true)
    (hrest : isEdge rest.head? = true) : (name ++ rest).takeWhile isIdentifierChar = name := by
  rw [List.takeWhile_append_of_pos hname]
  cases rest with
  | nil => simp
  | cons c r => simp [isEdge_head?_cons.mp hrest]

theorem dropWhile_run (hname : ∀ c ∈ name, isIdentifierChar c = true)
    (hrest : isEdge rest.head? = true) : (name ++ rest).dropWhile isIdentifierChar = rest := by
  rw [List.dropWhile_append_of_pos hname]
  cases rest with
  | nil => rfl
  | cons c r => simp [isEdge_head?_cons.mp hrest]

@[simp] theorem identifiers_nil : identifiers [] = [] := by rw [identifiers]

theorem identifiers_cons {c : Char} (hc : isIdentifierChar c = false) (r : Text) :
    identifiers (c :: r) = identifiers r := by
  rw [identifiers, if_neg (by simp [hc])]

theorem identifiers_run (hname : IsRun name) (hrest : isEdge rest.head? = true) :
    identifiers (name ++ rest) = name :: identifiers rest := by
  obtain ⟨c, r, rfl⟩ := List.exists_cons_of_ne_nil hname.ne_nil
  have hr : ∀ d ∈ r, isIdentifierChar d = true :=
    fun d hd => hname.all d (List.mem_cons_of_mem _ hd)
  rw [List.cons_append, identifiers, if_pos (hname.all c List.mem_cons_self),
    takeWhile_run hr hrest, dropWhile_run hr hrest]

variable {f g : Text → Text}

@[simp] theorem mapIdentifiers_nil : mapIdentifiers f [] = [] := by rw [mapIdentifiers]

theorem mapIdentifiers_cons {c : Char} (hc : isIdentifierChar c = false) (r : Text) :
    mapIdentifiers f (c :: r) = c :: mapIdentifiers f r := by
  rw [mapIdentifiers, if_neg (by simp [hc])]

theorem mapIdentifiers_run (hname : IsRun name) (hrest : isEdge rest.head? = true) :
    mapIdentifiers f (name ++ rest) = f name ++ mapIdentifiers f rest := by
  obtain ⟨c, r, rfl⟩ := List.exists_cons_of_ne_nil hname.ne_nil
  have hr : ∀ d ∈ r, isIdentifierChar d = true :=
    fun d hd => hname.all d (List.mem_cons_of_mem _ hd)
  rw [List.cons_append, mapIdentifiers, if_pos (hname.all c List.mem_cons_self),
    takeWhile_run hr hrest, dropWhile_run hr hrest]

theorem isEdge_head?_mapIdentifiers (hrest : isEdge rest.head? = true) :
    isEdge (mapIdentifiers f rest).head? = true := by
  cases rest with
  | nil => rw [mapIdentifiers_nil]; rfl
  | cons c r =>
    rw [mapIdentifiers_cons (isEdge_head?_cons.mp hrest)]
    exact hrest

/-- Code can be cut at an edge. -/
theorem mapIdentifiers_append {s t : Text}
    (h : isEdge s.getLast? = true ∨ isEdge t.head? = true) :
    mapIdentifiers f (s ++ t) = mapIdentifiers f s ++ mapIdentifiers f t := by
  induction s using identifier_induction with
  | nil => rw [mapIdentifiers_nil, List.nil_append, List.nil_append]
  | other c r hc ih =>
    rw [List.cons_append, mapIdentifiers_cons hc, mapIdentifiers_cons hc, List.cons_append, ih]
    rcases r with _ | ⟨d, r⟩
    · exact .inl rfl
    · rwa [List.getLast?_cons_cons] at h
  | run name rest hname hrest ih =>
    rcases rest with _ | ⟨d, rest⟩
    · -- an identifier at the end of the code goes on unless it meets an edge
      have hlast : isEdge name.getLast? = false := by
        rw [List.getLast?_eq_some_getLast hname.ne_nil]
        simp [isEdge, hname.all _ (List.getLast_mem hname.ne_nil)]
      have ht : isEdge t.head? = true := by
        rwa [List.append_nil, hlast, Bool.false_eq_true, false_or] at h
      rw [List.append_nil, mapIdentifiers_run hname ht, ← List.append_nil name,
        mapIdentifiers_run hname rfl, mapIdentifiers_nil, List.append_nil, List.append_nil]
    · have hlast : (name ++ d :: rest).getLast? = (d :: rest).getLast? := by
        simp [List.getLast?_append, List.getLast?_cons]
      have hedge : isEdge (d :: rest ++ t).head? = true := hrest
      rw [hlast] at h
      rw [List.append_assoc, mapIdentifiers_run hname hedge, mapIdentifiers_run hname hrest, ih h,
        List.append_assoc]

/-! ## Maps on identifiers -/

theorem mapIdentifiers_congr {code : Text} (h : ∀ name ∈ identifiers code, f name = g name) :
    mapIdentifiers f code = mapIdentifiers g code := by
  induction code using identifier_induction with
  | nil => rw [mapIdentifiers_nil, mapIdentifiers_nil]
  | other c r hc ih =>
    rw [identifiers_cons hc] at h
    rw [mapIdentifiers_cons hc, mapIdentifiers_cons hc, ih h]
  | run run rest hrun hrest ih =>
    rw [identifiers_run hrun hrest, List.forall_mem_cons] at h
    rw [mapIdentifiers_run hrun hrest, mapIdentifiers_run hrun hrest, ih h.2, h.1]

theorem mapIdentifiers_id (code : Text) : mapIdentifiers id code = code := by
  induction code using identifier_induction with
  | nil => exact mapIdentifiers_nil
  | other c r hc ih => rw [mapIdentifiers_cons hc, ih]
  | run run rest hrun hrest ih => rw [mapIdentifiers_run hrun hrest, ih, id]

theorem identifiers_mapIdentifiers (hf : ∀ name, IsRun name → IsRun (f name)) (code : Text) :
    identifiers (mapIdentifiers f code) = (identifiers code).map f := by
  induction code using identifier_induction with
  | nil => rw [mapIdentifiers_nil, identifiers_nil, List.map_nil]
  | other c r hc ih => rw [mapIdentifiers_cons hc, identifiers_cons hc, identifiers_cons hc, ih]
  | run run rest hrun hrest ih =>
    rw [mapIdentifiers_run hrun hrest,
      identifiers_run (hf run hrun) (isEdge_head?_mapIdentifiers hrest),
      identifiers_run hrun hrest, ih, List.map_cons]

theorem mapIdentifiers_mapIdentifiers (hf : ∀ name, IsRun name → IsRun (f name)) (code : Text) :
    mapIdentifiers g (mapIdentifiers f code) = mapIdentifiers (g ∘ f) code := by
  induction code using identifier_induction with
  | nil => rw [mapIdentifiers_nil, mapIdentifiers_nil, mapIdentifiers_nil]
  | other c r hc ih =>
    rw [mapIdentifiers_cons hc, mapIdentifiers_cons hc, mapIdentifiers_cons hc, ih]
  | run run rest hrun hrest ih =>
    rw [mapIdentifiers_run hrun hrest,
      mapIdentifiers_run (hf run hrun) (isEdge_head?_mapIdentifiers hrest),
      mapIdentifiers_run hrun hrest, ih, Function.comp]

theorem IsRun.not_mem {c : Char} (h : IsRun name) (hc : isIdentifierChar c = false) : c ∉ name := by
  intro hmem
  rw [h.all c hmem] at hc
  cases hc

/-- Maps that give the same code treat each of its identifiers the same. -/
theorem mapIdentifiers_eq_iff (hf : ∀ name, IsRun name → IsRun (f name))
    (hg : ∀ name, IsRun name → IsRun (g name)) (code : Text) :
    mapIdentifiers f code = mapIdentifiers g code ↔ ∀ name ∈ identifiers code, f name = g name := by
  refine ⟨fun h => ?_, mapIdentifiers_congr⟩
  have hmap := congrArg identifiers h
  rw [identifiers_mapIdentifiers hf, identifiers_mapIdentifiers hg] at hmap
  exact List.map_inj_left.mp hmap

/-! ## Renaming -/

section Renaming

variable {old : Text} (new : Text)

/-- What starts with an identifier goes on with it up to the next edge. -/
theorem exists_append_of_after? (hold : IsRun old) (hrest : isEdge rest.head? = true) {tail : Text}
    (h : after? old (name ++ rest) = some tail) : ∃ t, name = old ++ t ∧ tail = t ++ rest := by
  rcases List.append_eq_append_iff.mp (after?_eq_some.mp h) with
    ⟨t, hold', hrest'⟩ | ⟨t, hname, htail⟩
  · rcases t with _ | ⟨c, t⟩
    · exact ⟨[], by simpa using hold'.symm, by simpa using hrest'.symm⟩
    · have hc := hold.all c (by rw [hold']; simp)
      rw [hrest', List.cons_append, isEdge_head?_cons, hc] at hrest
      cases hrest
  · exact ⟨t, hname, htail⟩

/-- Behind a character of an identifier, the rest of the identifier stays. -/
theorem renameFrom_inside (hold : IsRun old) (hname : ∀ c ∈ name, isIdentifierChar c = true)
    (hrest : isEdge rest.head? = true) {last : Char} (hlast : isIdentifierChar last = true)
    {skip : Nat} (hskip : skip ≤ name.length) :
    ∃ c, renameFrom old new (some last) skip (name ++ rest) =
      name.drop skip ++ renameFrom old new (some c) 0 rest := by
  induction name generalizing last skip with
  | nil =>
    rw [Nat.le_zero.mp hskip]
    exact ⟨last, rfl⟩
  | cons c r ih =>
    rw [List.forall_mem_cons] at hname
    rw [List.cons_append]
    cases skip with
    | succ skip =>
      rw [renameFrom]
      exact ih hname.2 hname.1 (Nat.le_of_succ_le_succ hskip)
    | zero =>
      rw [renameFrom]
      rcases hafter : after? old (c :: (r ++ rest)) with _ | tail
      · obtain ⟨d, hd⟩ := ih hname.2 hname.1 (Nat.zero_le _)
        exact ⟨d, by simp [hd]⟩
      -- an occurrence in here has no edge in front of it, so it is written as it is and skipped
      · rw [← List.cons_append] at hafter
        obtain ⟨t, hcr, -⟩ := exists_append_of_after? hold hrest hafter
        obtain ⟨b, o, rfl⟩ := List.exists_cons_of_ne_nil hold.ne_nil
        obtain ⟨rfl, rfl⟩ := List.cons.inj hcr
        have hlength : (c :: o).length - 1 ≤ (o ++ t).length := by simp
        obtain ⟨d, hd⟩ := ih hname.2 hname.1 hlength
        have hedge : isEdge (some last) = false := by simp [isEdge, hlast]
        exact ⟨d, by simpa [hedge] using hd⟩

/-- At an edge, an identifier that is the old name becomes the new one, and any other stays. -/
theorem renameFrom_run (hold : IsRun old) (hname : IsRun name) (hrest : isEdge rest.head? = true)
    {last : Option Char} (hlast : isEdge last = true) :
    ∃ c, renameFrom old new last 0 (name ++ rest) =
      (if name = old then new else name) ++ renameFrom old new (some c) 0 rest := by
  obtain ⟨c, r, rfl⟩ := List.exists_cons_of_ne_nil hname.ne_nil
  have hall := hname.all
  rw [List.forall_mem_cons] at hall
  rw [List.cons_append, renameFrom]
  rcases hafter : after? old (c :: (r ++ rest)) with _ | tail
  · have hne : c :: r ≠ old := by
      rintro rfl
      rw [← List.cons_append, after?_eq_some.mpr rfl] at hafter
      cases hafter
    obtain ⟨d, hd⟩ := renameFrom_inside new hold hall.2 hrest hall.1 (Nat.zero_le r.length)
    exact ⟨d, by simp [hd, hne]⟩
  · rw [← List.cons_append] at hafter
    obtain ⟨t, hcr, rfl⟩ := exists_append_of_after? hold hrest hafter
    have hskip : old.length - 1 ≤ r.length := by
      have := congrArg List.length hcr
      simp only [List.length_cons, List.length_append] at this
      omega
    obtain ⟨d, hd⟩ := renameFrom_inside new hold hall.2 hrest hall.1 hskip
    refine ⟨d, ?_⟩
    simp only [hlast, Bool.true_and, hd]
    -- the occurrence is the whole identifier, or only its beginning
    rcases t with _ | ⟨b, t⟩
    · rw [List.append_nil] at hcr
      subst hcr
      simp [hrest]
    · have hb : isIdentifierChar b = true := hname.all b (by rw [hcr]; simp)
      have hne : c :: r ≠ old := by
        intro he
        have := congrArg List.length (he.symm.trans hcr)
        simp at this
      obtain ⟨a, o, rfl⟩ := List.exists_cons_of_ne_nil hold.ne_nil
      rw [if_neg hne]
      rw [List.cons_append, List.cons.injEq] at hcr
      have hedge : isEdge (some b) = false := by simp [isEdge, hb]
      simp [hedge, hcr.1, hcr.2]

/-- A renaming is a map on identifiers. -/
theorem rename_eq_mapIdentifiers (hold : IsRun old) (code : Text) :
    rename old new code = mapIdentifiers (fun name => if name = old then new else name) code := by
  suffices h : ∀ last, isEdge last = true ∨ isEdge code.head? = true →
      renameFrom old new last 0 code =
        mapIdentifiers (fun name => if name = old then new else name) code by
    have hne : old.isEmpty = false := by simpa using hold.ne_nil
    rw [rename, hne]
    exact h none (.inl rfl)
  induction code using identifier_induction with
  | nil =>
    intro last _
    rw [mapIdentifiers_nil, renameFrom]
  | other c r hc ih =>
    intro last _
    have hafter : after? old (c :: r) = none := by
      obtain ⟨b, o, rfl⟩ := List.exists_cons_of_ne_nil hold.ne_nil
      have hbc : b ≠ c := by
        rintro rfl
        rw [hold.all b List.mem_cons_self] at hc
        cases hc
      simp [after?, hbc]
    rw [renameFrom, hafter, mapIdentifiers_cons hc]
    exact congrArg _ (ih (some c) (.inl (isEdge_some.mpr hc)))
  | run name rest hname hrest ih =>
    intro last hlast
    have hhead : isEdge (name ++ rest).head? = false := by
      obtain ⟨c, r, rfl⟩ := List.exists_cons_of_ne_nil hname.ne_nil
      simp [isEdge, hname.all c List.mem_cons_self]
    obtain ⟨c, hc⟩ := renameFrom_run new hold hname hrest
      (hlast.resolve_right (by rw [hhead]; simp))
    rw [hc, mapIdentifiers_run hname hrest, ih (some c) (.inr hrest)]

end Renaming

/-! ## Names of classes -/

theorem isRun_of_mem_classNamesOf {words : List Text} (h : name ∈ classNamesOf words) :
    IsRun name := by
  fun_induction classNamesOf words with
  | case1 next rest taken hempty ih => exact ih h
  | case2 next rest taken hempty ih =>
    rcases List.mem_cons.mp h with rfl | h
    · exact ⟨by simpa using hempty, fun c hc => List.all_eq_true.mp List.all_takeWhile c hc⟩
    · exact ih h
  | case3 word next rest hword ih => exact ih h
  | case4 => cases h

theorem isRun_of_mem_classNames {code : Text} (h : name ∈ classNames code) : IsRun name :=
  isRun_of_mem_classNamesOf h

theorem isIdentifierChar_of_isDigit {c : Char} (h : c.isDigit = true) :
    isIdentifierChar c = true := by
  have hascii : c.toNat < 0x80 := by
    simp only [Char.isDigit, Bool.and_eq_true, decide_eq_true_eq] at h
    have : c.val.toNat ≤ 57 := UInt32.le_iff_toNat_le.mp h.2
    change c.val.toNat < 0x80
    omega
  simp [isIdentifierChar, isAlphanumeric, isNumeric, hascii, h]

/-- A candidate has the characters of the desired name, and digits. -/
theorem mem_candidate {desired : Text} {k : Nat} {c : Char} (h : c ∈ FreeName.candidate desired k) :
    c ∈ desired ∨ c.isDigit = true := by
  unfold FreeName.candidate at h
  split at h
  · exact .inl h
  · exact (List.mem_append.mp h).imp_right
      (Nat.isDigit_of_mem_toDigits (by decide) (by decide))

/-- A name with a number behind it is an identifier, too. -/
theorem IsRun.candidate (h : IsRun name) (k : Nat) : IsRun (FreeName.candidate name k) := by
  refine ⟨?_, fun c hc => (mem_candidate hc).elim (h.all c) isIdentifierChar_of_isDigit⟩
  unfold FreeName.candidate
  split
  · exact h.ne_nil
  · simp [h.ne_nil]

end SnippetEngine.Code
