-- Where a text stands in another one, and what becomes of a text when another one is replaced in it,
-- from left to right. Where no occurrence crosses from one text to the next, each is replaced on its
-- own.
import SnippetEngine.Proofs.Text.Cuts

namespace SnippetEngine.Text

variable {c : Char} {m t s r : Text}

/-! ## Occurrences and cuts -/

/-- A text without the character `c` stands on one side of it. -/
theorem infix_append_cons_iff (hm : c ∉ m) : m <:+: s ++ c :: t ↔ m <:+: s ∨ m <:+: t := by
  constructor
  · rintro ⟨u, v, hcut⟩
    rw [List.append_assoc] at hcut
    rcases List.append_eq_append_iff.mp hcut with ⟨w, rfl, hright⟩ | ⟨w, rfl, hright⟩
    · rcases List.append_eq_append_iff.mp hright with ⟨x, rfl, -⟩ | ⟨x, rfl, hx⟩
      · exact .inl ⟨u, x, by simp⟩
      · rcases x with _ | ⟨d, x⟩
        · exact .inl ⟨u, [], by simp⟩
        · obtain ⟨rfl, -⟩ := List.cons.inj hx
          exact absurd (by simp) hm
    · rcases w with _ | ⟨d, w⟩
      · rcases m with _ | ⟨d, m⟩
        · exact .inl ⟨[], s, rfl⟩
        · obtain ⟨rfl, -⟩ := List.cons.inj hright
          exact absurd List.mem_cons_self hm
      · obtain ⟨-, rfl⟩ := List.cons.inj hright
        exact .inr ⟨w, v, by simp⟩
  · rintro (h | h)
    · exact h.trans (List.prefix_append s _).isInfix
    · exact h.trans ⟨s ++ [c], [], by simp⟩

/-- Where no occurrence crosses from one text to the next, one that begins with the first text lies
in it. -/
theorem prefix_append_iff (hs : s ≠ [])
    (h : (∀ d ∈ s.getLast?, d ∉ m.dropLast) ∨ ∀ d ∈ t.head?, d ∉ m.tail) :
    m <+: s ++ t ↔ m <+: s := by
  refine ⟨fun ⟨rest, hrest⟩ => ?_, fun hbegins => hbegins.trans (List.prefix_append s t)⟩
  rcases List.append_eq_append_iff.mp hrest with ⟨u, hu, -⟩ | ⟨u, hu, hcut⟩
  · exact ⟨u, hu.symm⟩
  · rcases u with _ | ⟨d, u⟩
    · exact ⟨[], by simpa using hu⟩
    · exfalso
      subst hu
      rcases h with h | h
      · refine h (s.getLast hs) (List.getLast?_eq_some_getLast hs) ?_
        rw [List.dropLast_append_cons]
        exact List.mem_append_left _ (List.getLast_mem hs)
      · refine h d (by rw [hcut]; rfl) ?_
        rw [List.tail_append_of_ne_nil hs]
        simp

/-! ## The first occurrence -/

theorem startsWith_iff : startsWith m t = true ↔ m <+: t := by
  unfold startsWith
  rw [Option.isSome_iff_exists]
  exact exists_congr fun rest => after?_eq_some.trans eq_comm

theorem offsetOf?_cons (m : Text) (d : Char) (t : Text) :
    offsetOf? m (d :: t) =
      if startsWith m (d :: t) then some 0 else (offsetOf? m t).map (d.utf8Size + ·) := by
  unfold offsetOf? startsWith
  rw [cutAround?]
  rcases after? m (d :: t) with _ | rest
  · rcases cutAround? m t with _ | cut
    · rfl
    · rfl
  · rfl

theorem isSome_offsetOf?_iff : (offsetOf? m t).isSome = true ↔ m <:+: t := by
  induction t with
  | nil => cases m <;> simp [offsetOf?, cutAround?]
  | cons d t ih =>
    rw [List.infix_cons_iff, ← startsWith_iff, ← ih, offsetOf?_cons]
    split <;> simp [*]

theorem offsetOf?_eq_none (h : ¬ m <:+: t) : offsetOf? m t = none :=
  Option.not_isSome_iff_eq_none.mp (mt isSome_offsetOf?_iff.mp h)

theorem offsetOf?_eq_zero_iff : offsetOf? m t = some 0 ↔ m <+: t := by
  rcases t with _ | ⟨d, t⟩
  · cases m <;> simp [offsetOf?, cutAround?]
  · have hpos := Char.utf8Size_pos d
    rw [offsetOf?_cons, ← startsWith_iff]
    split
    next h => simp [h]
    next h =>
      refine iff_of_false (fun hzero => ?_) h
      obtain ⟨k, -, hk⟩ := Option.map_eq_some_iff.mp hzero
      omega

theorem add_byteSize_le_of_offsetOf? {k : Nat} (h : offsetOf? m t = some k) :
    k + m.byteSize ≤ t.byteSize := by
  obtain ⟨⟨before, after⟩, hcut, rfl⟩ := Option.map_eq_some_iff.mp h
  rw [eq_of_cutAround? hcut]
  simp

/-- The first occurrence in two texts is the first one in the first text, or else in the second. -/
theorem offsetOf?_append (hm : m ≠ [])
    (h : (∀ d ∈ s.getLast?, d ∉ m.dropLast) ∨ ∀ d ∈ t.head?, d ∉ m.tail) :
    offsetOf? m (s ++ t) = (offsetOf? m s).or ((offsetOf? m t).map (s.byteSize + ·)) := by
  induction s with
  | nil =>
    have hnone : offsetOf? m [] = none := offsetOf?_eq_none (by simpa using hm)
    simp [hnone]
  | cons d s ih =>
    have hrest : (∀ d ∈ s.getLast?, d ∉ m.dropLast) ∨ ∀ d ∈ t.head?, d ∉ m.tail := by
      rcases s with _ | ⟨b, s⟩
      · exact .inl fun _ hd => nomatch hd
      · rwa [List.getLast?_cons_cons] at h
    have hstart : startsWith m (d :: (s ++ t)) = startsWith m (d :: s) := by
      rw [Bool.eq_iff_iff, startsWith_iff, startsWith_iff]
      exact prefix_append_iff (List.cons_ne_nil d s) h
    rw [List.cons_append, offsetOf?_cons, offsetOf?_cons, hstart, ih hrest]
    split
    · rfl
    · rw [Option.map_or, Option.map_map]
      simp [Function.comp_def, Nat.add_assoc]

theorem infix_append_iff (hm : m ≠ [])
    (h : (∀ d ∈ s.getLast?, d ∉ m.dropLast) ∨ ∀ d ∈ t.head?, d ∉ m.tail) :
    m <:+: s ++ t ↔ m <:+: s ∨ m <:+: t := by
  rw [← isSome_offsetOf?_iff, ← isSome_offsetOf?_iff, ← isSome_offsetOf?_iff,
    offsetOf?_append hm h, Option.isSome_or, Option.isSome_map, Bool.or_eq_true]

/-! ## Replacing -/

variable {needle new : Text} {skip : Nat}

theorem replaceFrom_eq_self (h : ¬ needle <:+: t) : replaceFrom needle new 0 t = t := by
  induction t with
  | nil => rfl
  | cons d r ih =>
    have hstart : ¬ startsWith needle (d :: r) = true := fun hs =>
      h (startsWith_iff.mp hs).isInfix
    rw [replaceFrom, if_neg hstart, ih fun hr => h (List.infix_cons hr)]

/-- Where no occurrence of the needle crosses from one text to the next. -/
theorem startsWith_append (hs : s ≠ [])
    (h : (∀ d ∈ s.getLast?, d ∉ needle) ∨ ∀ d ∈ t.head?, d ∉ needle) :
    startsWith needle (s ++ t) = startsWith needle s := by
  rw [Bool.eq_iff_iff, startsWith_iff, startsWith_iff]
  refine prefix_append_iff hs (h.imp (fun h d hd => ?_) fun h d hd => ?_)
  · exact mt (fun hmem => (List.dropLast_subset _) hmem) (h d hd)
  · exact mt List.mem_of_mem_tail (h d hd)

theorem replaceFrom_append (h : (∀ d ∈ s.getLast?, d ∉ needle) ∨ ∀ d ∈ t.head?, d ∉ needle)
    (hskip : skip ≤ s.length) :
    replaceFrom needle new skip (s ++ t) =
      replaceFrom needle new skip s ++ replaceFrom needle new 0 t := by
  induction s generalizing skip with
  | nil =>
    obtain rfl := Nat.le_zero.mp hskip
    rfl
  | cons d s ih =>
    have hrest : (∀ d ∈ s.getLast?, d ∉ needle) ∨ ∀ d ∈ t.head?, d ∉ needle := by
      rcases s with _ | ⟨b, s⟩
      · exact .inl fun _ hd => nomatch hd
      · rwa [List.getLast?_cons_cons] at h
    cases skip with
    | succ skip => exact ih hrest (Nat.le_of_succ_le_succ hskip)
    | zero =>
      have hstart := startsWith_append (List.cons_ne_nil d s) h
      rw [List.cons_append] at hstart ⊢
      rw [replaceFrom, replaceFrom, hstart]
      split
      next hs =>
        have hlength : needle.length - 1 ≤ s.length := by
          have := (startsWith_iff.mp hs).length_le
          rw [List.length_cons] at this
          omega
        rw [ih hrest hlength, List.append_assoc]
      next => rw [ih hrest (Nat.zero_le _), List.cons_append]

/-! ## Replacing an occurrence -/

/-- What belongs to an occurrence that is written is passed. -/
theorem replaceFrom_length (new s t : Text) :
    replaceFrom m new s.length (s ++ t) = replaceFrom m new 0 t := by
  induction s with
  | nil => rfl
  | cons d s ih => exact ih

theorem replaceFrom_copy (hne : m ≠ []) (new t : Text) :
    replaceFrom m new 0 (m ++ t) = new ++ replaceFrom m new 0 t := by
  have hstart : startsWith m (m ++ t) = true := startsWith_iff.mpr (List.prefix_append m t)
  obtain ⟨d, m', rfl⟩ := List.exists_cons_of_ne_nil hne
  rw [List.cons_append, replaceFrom, ← List.cons_append, if_pos hstart]
  exact congrArg _ (replaceFrom_length new m' t)

/-- What stands in front of the first occurrence stays as it is. -/
theorem replaceAll_of_cutAround? (hne : m ≠ []) (new : Text)
    (h : cutAround? m t = some (s, r)) : replaceAll m new t = s ++ new ++ replaceAll m new r := by
  have hempty : m.isEmpty = false := by simpa using hne
  unfold replaceAll
  rw [hempty]
  simp only [Bool.false_eq_true, if_false]
  induction t generalizing s with
  | nil =>
    rw [cutAround?, hempty] at h
    cases h
  | cons d t ih =>
    rw [cutAround?] at h
    rcases hafter : after? m (d :: t) with _ | rest
    · rw [hafter] at h
      obtain ⟨⟨b, a⟩, hcut, heq⟩ := Option.map_eq_some_iff.mp h
      cases heq
      have hstart : startsWith m (d :: t) = false := by
        unfold startsWith
        rw [hafter]
        rfl
      rw [replaceFrom, hstart, ih hcut]
      rfl
    · rw [hafter] at h
      cases h
      rw [after?_eq_some.mp hafter, replaceFrom_copy hne, List.nil_append]

end SnippetEngine.Text
