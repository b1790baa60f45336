-- Copies of a marker among other texts. If no other text has a certain piece of the marker, or
-- begins with an end of it, then none makes that piece up with what stands in front of it. So the
-- copies stay whole when texts are put together, trimmed and replaced, and one pass from left to
-- right removes them and makes no new one.
import Mathlib.Data.List.DropRight
import Mathlib.Data.List.Infix
import SnippetEngine.Proofs.Text.Occurrences

namespace SnippetEngine.Text

variable {w m q s t r : Text}

/-! ## Where two texts meet -/

/-- What begins two texts begins the first, or goes on behind it. -/
theorem prefix_append_cases (h : q <+: s ++ t) :
    q <+: s ∨ ∃ r, r ≠ [] ∧ q = s ++ r ∧ r <+: t := by
  obtain ⟨rest, hrest⟩ := h
  rcases List.append_eq_append_iff.mp hrest with ⟨u, hu, -⟩ | ⟨u, hu, hcut⟩
  · exact .inl ⟨u, hu.symm⟩
  · rcases u with _ | ⟨d, u⟩
    · exact .inl ⟨[], by simpa using hu⟩
    · exact .inr ⟨d :: u, List.cons_ne_nil d u, hu, rest, hcut.symm⟩

/-- What stands in two texts stands in one of them, or partly in each. -/
theorem infix_append_cases (h : w <:+: s ++ t) :
    w <:+: s ∨ w <:+: t ∨ ∃ p q, p ≠ [] ∧ q ≠ [] ∧ w = p ++ q ∧ q <+: t := by
  induction s with
  | nil => exact .inr (.inl h)
  | cons d s ih =>
    rw [List.cons_append, List.infix_cons_iff, ← List.cons_append] at h
    rcases h with hfirst | hrest
    · rcases prefix_append_cases hfirst with hs | ⟨q, hq, hw, ht⟩
      · exact .inl hs.isInfix
      · exact .inr (.inr ⟨d :: s, q, List.cons_ne_nil d s, hq, hw, ht⟩)
    · exact (ih hrest).imp_left List.infix_cons

/-- The text does not begin with an end of `w`. -/
def NoStart (w t : Text) : Prop := ∀ q, q ≠ [] → q <:+ w → ¬ q <+: t

instance (w t : Text) : Decidable (NoStart w t) :=
  decidable_of_iff (∀ q ∈ w.tails, q ≠ [] → ¬ q <+: t) (by
    simp only [List.mem_tails]
    exact forall_congr' fun q => forall_comm)

theorem not_infix_append (hs : ¬ w <:+: s) (ht : ¬ w <:+: t) (hstart : NoStart w t) :
    ¬ w <:+: s ++ t := by
  intro h
  rcases infix_append_cases h with h | h | ⟨p, q, -, hq, rfl, hbegins⟩
  · exact hs h
  · exact ht h
  · exact hstart q hq (List.suffix_append p q) hbegins

theorem NoStart.append (hs : NoStart w s) (ht : NoStart w t) : NoStart w (s ++ t) := by
  intro q hq hw h
  rcases prefix_append_cases h with hbegins | ⟨r, hr, rfl, hbegins⟩
  · exact hs q hq hw hbegins
  · exact ht r hr ((List.suffix_append s r).trans hw) hbegins

/-! ## Texts without a piece -/

/-- The text has no `w`, and begins with no end of it, not even behind blanks. -/
structure Lacks (w t : Text) : Prop where
  notInfix : ¬ w <:+: t
  front : NoStart w (trimStart t)

instance (w t : Text) : Decidable (Lacks w t) :=
  decidable_of_iff (¬ w <:+: t ∧ NoStart w (trimStart t))
    ⟨fun ⟨hwithin, hfront⟩ => ⟨hwithin, hfront⟩, fun h => ⟨h.notInfix, h.front⟩⟩

/-- A piece of a marker that tells its copies apart: it has no blank, and the marker begins with no
end of it but the whole. A single character of the marker will do, if it is no blank. -/
structure IsPiece (w m : Text) : Prop where
  ne_nil : w ≠ []
  isInfix : w <:+: m
  notBlank : ∀ d ∈ w, isBlank d = false
  noStart : NoStart w.tail m

theorem IsPiece.marker_ne_nil (hp : IsPiece w m) : m ≠ [] := by
  rintro rfl
  exact hp.ne_nil (List.infix_nil.mp hp.isInfix)

namespace Lacks

theorem noStart (hw : ∀ d ∈ w, isBlank d = false) (h : Lacks w t) : NoStart w t := by
  intro q hq hsuffix hbegins
  obtain ⟨d, q, rfl⟩ := List.exists_cons_of_ne_nil hq
  obtain ⟨rest, rfl⟩ := hbegins
  refine h.front _ hq hsuffix ?_
  unfold trimStart
  rw [List.cons_append, List.dropWhile_cons_of_neg (by simp [hw d (hsuffix.subset (by simp))])]
  exact List.prefix_append (d :: q) rest

theorem append (hw : ∀ d ∈ w, isBlank d = false) (hs : Lacks w s) (ht : Lacks w t) :
    Lacks w (s ++ t) := by
  refine ⟨not_infix_append hs.notInfix ht.notInfix (ht.noStart hw), ?_⟩
  unfold trimStart
  rw [List.dropWhile_append]
  split
  · exact ht.front
  · exact hs.front.append (ht.noStart hw)

/-- Texts with no character of `w`. -/
theorem of_disjoint (hne : w ≠ []) (h : ∀ d ∈ t, d ∉ w) : Lacks w t := by
  constructor
  · intro hw
    obtain ⟨d, w, rfl⟩ := List.exists_cons_of_ne_nil hne
    exact h d (hw.subset List.mem_cons_self) List.mem_cons_self
  · intro q hq hsuffix hbegins
    obtain ⟨d, q, rfl⟩ := List.exists_cons_of_ne_nil hq
    have hd : d ∈ t := (List.dropWhile_sublist isBlank).subset (hbegins.subset List.mem_cons_self)
    exact h d hd (hsuffix.subset List.mem_cons_self)

theorem nil (hne : w ≠ []) : Lacks w [] := of_disjoint hne fun _ hd => nomatch hd

theorem of_prefix (h : Lacks w t) (hs : s <+: t) : Lacks w s := by
  refine ⟨fun hw => h.notInfix (hw.trans hs.isInfix), fun q hq hsuffix hbegins => ?_⟩
  obtain ⟨r, rfl⟩ := hs
  refine h.front q hq hsuffix ?_
  unfold trimStart at hbegins ⊢
  rw [List.dropWhile_append]
  split
  next hblank =>
    rw [List.isEmpty_iff.mp hblank] at hbegins
    exact absurd (List.prefix_nil.mp hbegins) hq
  next => exact hbegins.trans (List.prefix_append _ _)

theorem trimStart (h : Lacks w t) : Lacks w (trimStart t) := by
  refine ⟨fun hw => h.notInfix (hw.trans (List.dropWhile_suffix isBlank).isInfix), ?_⟩
  unfold Text.trimStart
  rw [List.dropWhile_idempotent]
  exact h.front

theorem trimEnd (h : Lacks w t) : Lacks w (trimEnd t) :=
  h.of_prefix ⟨_, trimEnd_append_blanks t⟩

theorem trim (h : Lacks w t) : Lacks w (trim t) := h.trimStart.trimEnd

end Lacks

/-- Characters that `w` has not stand in front of its occurrences only. -/
theorem infix_append_iff_right (hne : w ≠ []) (hs : ∀ d ∈ s, d ∉ w) :
    w <:+: s ++ t ↔ w <:+: t := by
  have hlast : ∀ d ∈ s.getLast?, d ∉ w.dropLast := fun d hd hmem =>
    hs d (List.mem_of_getLast? hd) (List.dropLast_subset w hmem)
  rw [infix_append_iff hne (.inl hlast), or_iff_right (Lacks.of_disjoint hne hs).notInfix]

/-! ## Replacing in texts without a piece -/

section Replacing

variable {needle new : Text} {skip : Nat}

theorem prefix_of_prefix_replaceFrom (hne : new ≠ []) (hnew : ∀ d ∈ new, d ∉ q)
    (h : q <+: replaceFrom needle new skip t) : q <+: t.drop skip := by
  fun_induction replaceFrom needle new skip t generalizing q with
  | case1 => simpa using h
  | case2 skip d r ih => exact ih hnew h
  | case3 d r hstart ih =>
    rcases q with _ | ⟨b, q⟩
    · exact List.nil_prefix
    · obtain ⟨c, new, rfl⟩ := List.exists_cons_of_ne_nil hne
      rw [List.cons_append, List.cons_prefix_cons] at h
      exact absurd (h.1 ▸ List.mem_cons_self) (hnew c List.mem_cons_self)
  | case4 d r hstart ih =>
    rcases q with _ | ⟨b, q⟩
    · exact List.nil_prefix
    · rw [List.cons_prefix_cons] at h
      refine List.cons_prefix_cons.mpr ⟨h.1, ih (fun c hc hmem => ?_) h.2⟩
      exact hnew c hc (List.mem_cons_of_mem b hmem)

theorem infix_of_infix_replaceFrom (hne : new ≠ []) (hw : w ≠ []) (hnew : ∀ d ∈ new, d ∉ w)
    (h : w <:+: replaceFrom needle new skip t) : w <:+: t := by
  fun_induction replaceFrom needle new skip t with
  | case1 => exact h
  | case2 skip d r ih => exact List.infix_cons (ih h)
  | case3 d r hstart ih => exact List.infix_cons (ih ((infix_append_iff_right hw hnew).mp h))
  | case4 d r hstart ih =>
    rcases List.infix_cons_iff.mp h with hfirst | hrest
    · have hcode : w <+: replaceFrom needle new 0 (d :: r) := by
        rwa [replaceFrom, if_neg hstart]
      exact (prefix_of_prefix_replaceFrom hne hnew hcode).isInfix
    · exact List.infix_cons (ih hrest)

/-- What is written in place of the needle is no part of `w`, and begins with no blank. -/
theorem Lacks.replaceAll (hw : w ≠ []) (hne : new ≠ []) (hnew : ∀ d ∈ new, d ∉ w)
    (hhead : ∀ d ∈ new.head?, isBlank d = false) (h : Lacks w t) :
    Lacks w (replaceAll needle new t) := by
  unfold Text.replaceAll
  split
  next => exact h
  next =>
    refine ⟨mt (infix_of_infix_replaceFrom hne hw hnew) h.notInfix, fun q hq hsuffix hbegins => ?_⟩
    have hdisjoint : ∀ d ∈ new, d ∉ q := fun d hd hmem => hnew d hd (hsuffix.subset hmem)
    refine h.front q hq hsuffix ?_
    clear h
    induction t with
    | nil => exact hbegins
    | cons d r ih =>
      rw [replaceFrom] at hbegins
      split at hbegins
      next =>
        -- what is written here begins with no end of `w`
        obtain ⟨c, new, rfl⟩ := List.exists_cons_of_ne_nil hne
        obtain ⟨b, q, rfl⟩ := List.exists_cons_of_ne_nil hq
        unfold Text.trimStart at hbegins
        rw [List.cons_append, List.dropWhile_cons_of_neg (by simp [hhead c rfl]),
          List.cons_prefix_cons] at hbegins
        exact absurd (hbegins.1 ▸ List.mem_cons_self) (hdisjoint c List.mem_cons_self)
      next hstart =>
        unfold Text.trimStart at hbegins ⊢
        by_cases hblank : isBlank d = true
        · rw [List.dropWhile_cons_of_pos hblank] at hbegins ⊢
          exact ih hbegins
        · rw [List.dropWhile_cons_of_neg hblank] at hbegins ⊢
          have hcode : q <+: replaceFrom needle new 0 (d :: r) := by
            rwa [replaceFrom, if_neg hstart]
          exact prefix_of_prefix_replaceFrom hne hdisjoint hcode

end Replacing

/-! ## Whole copies of a marker -/

/-- The text is made of copies of `m` and of texts that lack its piece `w`. -/
inductive Marked (w m : Text) : Text → Prop
  | plain {t : Text} (h : Lacks w t) : Marked w m t
  | marker {t r : Text} (h : Lacks w t) (rest : Marked w m r) : Marked w m (t ++ (m ++ r))

namespace Marked

theorem self (hp : IsPiece w m) : Marked w m m := by
  have h : Marked w m ([] ++ (m ++ [])) := .marker (.nil hp.ne_nil) (.plain (.nil hp.ne_nil))
  simpa using h

theorem append (hp : IsPiece w m) (hs : Marked w m s) (ht : Marked w m t) :
    Marked w m (s ++ t) := by
  induction hs with
  | @plain s hs =>
    cases ht with
    | plain ht => exact .plain (hs.append hp.notBlank ht)
    | marker ht hr =>
      rw [← List.append_assoc]
      exact .marker (hs.append hp.notBlank ht) hr
  | @marker u r hu _ ih =>
    rw [List.append_assoc, List.append_assoc]
    exact .marker hu ih

theorem not_infix_of_lacks (hp : IsPiece w m) (h : Lacks w t) : ¬ m <:+: t :=
  fun hm => h.notInfix (hp.isInfix.trans hm)

/-- What passes the copies of a marker by keeps them whole, and takes none away. -/
theorem map (hp : IsPiece w m) {g : Text → Text} (hplain : ∀ t, Lacks w t → Lacks w (g t))
    (hcut : ∀ t r, g (t ++ (m ++ r)) = g t ++ (m ++ g r)) (h : Marked w m t) :
    Marked w m (g t) ∧ (m <:+: g t ↔ m <:+: t) := by
  induction h with
  | plain h =>
    exact ⟨.plain (hplain _ h),
      iff_of_false (not_infix_of_lacks hp (hplain _ h)) (not_infix_of_lacks hp h)⟩
  | @marker t r h _ ih =>
    rw [hcut]
    exact ⟨.marker (hplain t h) ih.1,
      iff_of_true ⟨g t, g r, List.append_assoc _ _ _⟩ ⟨t, r, List.append_assoc _ _ _⟩⟩

theorem trim (hp : IsPiece w m) (hm : IsTight m) (h : Marked w m t) :
    Marked w m (trim t) ∧ (m <:+: trim t ↔ m <:+: t) := by
  have hend : ∀ {t : Text}, Marked w m t → Marked w m (trimEnd t) := by
    intro t h
    induction h with
    | plain h => exact .plain h.trimEnd
    | @marker t r h _ ih =>
      have hlast : ∀ c ∈ (t ++ m).getLast?, isBlank c = false := by
        obtain ⟨m, c, rfl⟩ := (List.eq_nil_or_concat m).resolve_left hp.marker_ne_nil
        simpa using hm.2
      rw [← List.append_assoc, trimEnd_append (by simp [hp.marker_ne_nil]) hlast, List.append_assoc]
      exact .marker h ih
  cases h with
  | plain h =>
    exact ⟨.plain h.trim, iff_of_false (not_infix_of_lacks hp h.trim) (not_infix_of_lacks hp h)⟩
  | @marker t r h hr =>
    rw [trim_append hp.marker_ne_nil hm]
    exact ⟨.marker h.trimStart (hend hr),
      iff_of_true ⟨_, _, List.append_assoc _ _ _⟩ ⟨t, r, List.append_assoc _ _ _⟩⟩

/-- Copies of a marker are left as they are where another text is replaced that is not in the marker
and has neither its first nor its last character. -/
theorem replaceAll {needle new : Text} (hp : IsPiece w m) (hfirst : ∀ d ∈ m.head?, d ∉ needle)
    (hlast : ∀ d ∈ m.getLast?, d ∉ needle) (hneedle : ¬ needle <:+: m) (hne : new ≠ [])
    (hnew : ∀ d ∈ new, d ∉ w) (hhead : ∀ d ∈ new.head?, isBlank d = false) (h : Marked w m t) :
    Marked w m (replaceAll needle new t) ∧ (m <:+: replaceAll needle new t ↔ m <:+: t) := by
  refine h.map hp (fun _ ht => ht.replaceAll hp.ne_nil hne hnew hhead) fun t r => ?_
  have hfront : ∀ d ∈ (m ++ r).head?, d ∉ needle := by
    obtain ⟨b, m, rfl⟩ := List.exists_cons_of_ne_nil hp.marker_ne_nil
    exact hfirst
  unfold Text.replaceAll
  split
  next => rfl
  next =>
    rw [replaceFrom_append (.inr hfront) (Nat.zero_le _),
      replaceFrom_append (.inl hlast) (Nat.zero_le _), replaceFrom_eq_self hneedle]

end Marked

/-! ## Removing a marker -/

/-- Of the places where a text stands there is a first one. -/
theorem exists_first_infix (h : w <:+: m) :
    ∃ u v, m = u ++ (w ++ v) ∧ ∀ u', u' ++ w <+: m → u.length ≤ u'.length := by
  induction m with
  | nil => exact ⟨[], [], by simpa using (List.infix_nil.mp h).symm, fun _ _ => Nat.zero_le _⟩
  | cons d m ih =>
    by_cases hfirst : w <+: d :: m
    · obtain ⟨v, hv⟩ := hfirst
      exact ⟨[], v, hv.symm, fun _ _ => Nat.zero_le _⟩
    · obtain ⟨u, v, rfl, hu⟩ := ih ((List.infix_cons_iff.mp h).resolve_left hfirst)
      refine ⟨d :: u, v, rfl, fun u' hu' => ?_⟩
      rcases u' with _ | ⟨b, u'⟩
      · exact absurd hu' hfirst
      · exact Nat.succ_le_succ (hu u' (List.cons_prefix_cons.mp hu').2)

/-- No occurrence of a marker begins in a text without its piece and ends in a copy behind it. -/
theorem startsWith_eq_false (hp : IsPiece w m) (hs : ¬ w <:+: s) (hne : s ≠ []) (t : Text) :
    startsWith m (s ++ (m ++ t)) = false := by
  rw [Bool.eq_false_iff]
  intro hstart
  have hbegins := startsWith_iff.mp hstart
  obtain ⟨u, v, hm, hfirst⟩ := exists_first_infix hp.isInfix
  have hinside : ∀ {c : Text}, c.length < u.length → ¬ c ++ w <+: m ++ t := by
    intro c hc hpre
    refine absurd (hfirst c (List.prefix_of_prefix_length_le hpre (List.prefix_append m t) ?_)) ?_
    · rw [hm]
      simp only [List.length_append]
      omega
    · omega
  have hpiece : u ++ w <+: s ++ (m ++ t) := by
    refine List.IsPrefix.trans ⟨v, ?_⟩ hbegins
    rw [hm, List.append_assoc]
  have hpos := List.length_pos_of_ne_nil hne
  rcases prefix_append_cases hpiece with hcut | ⟨r, hr, hcut, hrest⟩
  · exact hs (List.IsInfix.trans ⟨u, [], by simp⟩ hcut.isInfix)
  rcases List.append_eq_append_iff.mp hcut with ⟨a, hs', hw⟩ | ⟨c, hu, rfl⟩
  · rcases a with _ | ⟨b, a⟩
    · -- the piece would begin where the copy begins, and the first one in a copy does not
      obtain rfl : w = r := hw
      refine hinside (c := []) ?_ hrest
      rw [← hs'.trans (List.append_nil u)]
      exact hpos
    · -- the piece would begin in the text and end in the copy
      have htail : w.tail = a ++ r := congrArg List.tail hw
      refine hp.noStart r hr ⟨a, htail.symm⟩ ?_
      refine List.prefix_of_prefix_length_le hrest (List.prefix_append m t) ?_
      have hlen := congrArg List.length hw
      have := hp.isInfix.length_le
      rw [List.length_append, List.length_cons] at hlen
      omega
  · refine hinside ?_ hrest
    rw [hu, List.length_append]
    omega

theorem replaceFrom_skip (hp : IsPiece w m) (hs : ¬ w <:+: s) (new t : Text) :
    replaceFrom m new 0 (s ++ (m ++ t)) = s ++ replaceFrom m new 0 (m ++ t) := by
  induction s with
  | nil => rfl
  | cons d s ih =>
    have hstart := startsWith_eq_false hp hs (List.cons_ne_nil d s) t
    rw [List.cons_append] at hstart ⊢
    rw [replaceFrom, hstart, ih fun h => hs (List.infix_cons h)]
    rfl

/-- Nothing is left of a marker that stands in whole copies, and no new one is made. -/
theorem Marked.lacks_replaceAll (hp : IsPiece w m) (h : Marked w m t) :
    Lacks w (Text.replaceAll m [] t) := by
  rw [Text.replaceAll, if_neg (by simpa using hp.marker_ne_nil)]
  induction h with
  | plain h =>
    rw [replaceFrom_eq_self (not_infix_of_lacks hp h)]
    exact h
  | @marker t r h _ ih =>
    rw [replaceFrom_skip hp h.notInfix, replaceFrom_copy hp.marker_ne_nil, List.nil_append]
    exact h.append hp.notBlank ih

end SnippetEngine.Text
