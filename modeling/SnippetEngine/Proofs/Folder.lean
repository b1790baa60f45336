-- Folders while files and directories are made in them. A folder stays a tree: each place stands
-- once, in a directory. A step writes the one file that it is about; if it fails, it leaves nothing
-- but directories on the way, and no other file changes.
import Mathlib.Data.List.Nodup
import SnippetEngine.Folder

namespace SnippetEngine.Folder

/-! ## What stands in a folder -/

/-- Each place stands once, in a directory. -/
structure WellFormed (f : Folder) : Prop where
  distinct : (f.map Prod.fst).Nodup
  inDirectory : ∀ place ∈ f.map Prod.fst, ∃ here name,
    place = here ++ [name] ∧ f.content? here = some .directory

/-- What stands in the first folder stands in the second one, which has no other files. -/
structure Grows (f g : Folder) : Prop where
  stays : ∀ place content, f.content? place = some content → g.content? place = some content
  file?_eq : ∀ place, g.file? place = f.file? place

variable {f g : Folder} {here place : Place} {name : Text} {content : FileContent}

theorem Grows.refl (f : Folder) : Grows f f := ⟨fun _ _ h => h, fun _ => rfl⟩

theorem Grows.trans {k : Folder} (h : Grows f g) (h' : Grows g k) : Grows f k where
  stays p c hc := h'.stays p c (h.stays p c hc)
  file?_eq p := (h'.file?_eq p).trans (h.file?_eq p)

theorem content?_put (hplace : place ≠ []) (p : Place) :
    (put place content f).content? p = if p = place then some content else f.content? p := by
  unfold content? put
  by_cases hp : p = place
  · subst hp
    simp [hplace]
  · rw [if_neg hp]
    split
    · rfl
    · rw [List.find?_cons_of_neg (by simpa using Ne.symm hp), List.find?_filter]
      congr 2
      funext entry
      by_cases hentry : entry.1 = p
      · simp [hentry, hp]
      · simp [hentry]

theorem file?_put (hplace : place ≠ []) {p : Place} (hp : p ≠ place) :
    (put place content f).file? p = f.file? p := by
  unfold file?
  rw [content?_put hplace, if_neg hp]

theorem mem_of_content? (hplace : place ≠ []) (h : f.content? place = some content) :
    place ∈ f.map Prod.fst := by
  unfold content? at h
  rw [if_neg (by simpa using hplace)] at h
  obtain ⟨entry, hentry, -⟩ := Option.map_eq_some_iff.mp h
  have hsame := List.find?_some hentry
  exact List.mem_map.mpr ⟨entry, List.mem_of_find?_eq_some hentry, by simpa using hsame⟩

/-- In place of a directory goes only a directory. -/
theorem WellFormed.put (h : f.WellFormed) (hhere : f.content? here = some .directory)
    (hkeeps : f.content? (here ++ [name]) = some .directory → content = .directory) :
    (put (here ++ [name]) content f).WellFormed := by
  have hne : here ++ [name] ≠ [] := by simp
  constructor
  · refine List.nodup_cons.mpr ⟨?_, ?_⟩
    · simp
    · exact h.distinct.sublist (List.filter_sublist.map _)
  · intro place hplace
    rcases List.mem_cons.mp hplace with rfl | hold
    · refine ⟨here, name, rfl, ?_⟩
      rw [content?_put hne, if_neg (by simp), hhere]
    · obtain ⟨entry, hentry, rfl⟩ := List.mem_map.mp hold
      obtain ⟨above, last, hlast, hdir⟩ :=
        h.inDirectory entry.1 (List.mem_map_of_mem (List.mem_of_mem_filter hentry))
      refine ⟨above, last, hlast, ?_⟩
      rw [content?_put hne]
      split
      next habove => rw [hkeeps (habove ▸ hdir)]
      next => exact hdir

/-! ## Making files and directories -/

section Run

variable {α β : Type}

theorem run_get_bind (k : Folder → Making α) : (get >>= k).run.run f = (k f).run.run f := rfl

theorem run_bind (x : Making α) (k : α → Making β) : (x >>= k).run.run f =
    match x.run.run f with
    | (none, g) => (none, g)
    | (some a, g) => (k a).run.run g := by
  rw [OptionT.run_bind, Option.elimM, StateT.run_bind]
  rcases x.run.run f with ⟨_ | a, g⟩ <;> rfl

theorem run_enter (here : Place) (name : Text) (f : Folder) : (enter here name).run.run f =
    if isHere name then (some here, f)
    else if isParent name then (if here.isEmpty then none else some here.dropLast, f)
    else
      match f.content? (here ++ [name]) with
      | some .directory => (some (here ++ [name]), f)
      | some (.bytes _) => (none, f)
      | none => (some (here ++ [name]), put (here ++ [name]) .directory f) := by
  unfold enter
  split
  · rfl
  split
  · split <;> rfl
  · rw [run_get_bind]
    rcases f.content? (here ++ [name]) with _ | _ | _ <;> rfl

theorem run_write (names : List Text) (bytes : ByteArray) (f : Folder) :
    (write names bytes).run.run f =
      let name := names.getLast?.getD []
      if isHere name || isParent name then (none, f) else
        match (enterAll names.dropLast).run.run f with
        | (none, g) => (none, g)
        | (some here, g) =>
          match g.content? (here ++ [name]) with
          | some .directory => (none, g)
          | _ => (some (), put (here ++ [name]) (.bytes bytes) g) := by
  unfold write
  dsimp only
  split
  · rfl
  · rw [run_bind]
    rcases (enterAll names.dropLast).run.run f with ⟨_ | here, g⟩
    · rfl
    · dsimp only
      rw [run_get_bind]
      rcases g.content? (here ++ [names.getLast?.getD []]) with _ | _ | _ <;> rfl

end Run

/-- A way through a folder leads to a directory, or ends. -/
structure Leads (f : Folder) (end? : Option Place) (g : Folder) : Prop where
  wellFormed : g.WellFormed
  grows : f.Grows g
  isDirectory : ∀ place ∈ end?, g.content? place = some .directory

theorem leads_enter {end? : Option Place} (hf : f.WellFormed)
    (hhere : f.content? here = some .directory)
    (h : (enter here name).run.run f = (end?, g)) : Leads f end? g := by
  rw [run_enter] at h
  split at h
  · cases h
    exact ⟨hf, .refl f, by simpa using hhere⟩
  split at h
  · cases h
    refine ⟨hf, .refl f, fun place hplace => ?_⟩
    split at hplace
    · cases hplace
    next hempty =>
      cases hplace
      obtain ⟨above, last, rfl, habove⟩ :=
        hf.inDirectory here (mem_of_content? (by simpa using hempty) hhere)
      rwa [List.dropLast_concat]
  · rcases hthere : f.content? (here ++ [name]) with _ | _ | bytes
    · rw [hthere] at h
      cases h
      have hne : here ++ [name] ≠ [] := by simp
      refine ⟨hf.put hhere fun _ => rfl, ⟨fun p c hc => ?_, fun p => ?_⟩, ?_⟩
      · rw [content?_put hne, if_neg, hc]
        rintro rfl
        cases hthere.symm.trans hc
      · by_cases hp : p = here ++ [name]
        · subst hp
          simp [file?, content?_put hne, hthere]
        · exact file?_put hne hp
      · rintro _ ⟨⟩
        rw [content?_put hne, if_pos rfl]
    · rw [hthere] at h
      cases h
      exact ⟨hf, .refl f, by simpa using hthere⟩
    · rw [hthere] at h
      cases h
      exact ⟨hf, .refl f, nofun⟩

/-- A way of several names leads where its steps lead, and ends at the first that fails. -/
theorem leads_foldlM {end? : Option Place} {names : List Text} (hf : f.WellFormed)
    (hhere : f.content? here = some .directory)
    (h : (names.foldlM enter here).run.run f = (end?, g)) : Leads f end? g := by
  induction names generalizing f here with
  | nil =>
    cases h
    exact ⟨hf, .refl _, by simpa using hhere⟩
  | cons name names ih =>
    rw [List.foldlM_cons, run_bind] at h
    rcases hfirst : (enter here name).run.run f with ⟨_ | there, k⟩
    · rw [hfirst] at h
      cases h
      exact leads_enter hf hhere hfirst
    · rw [hfirst] at h
      obtain ⟨hwell, hgrows, hdir⟩ := leads_enter hf hhere hfirst
      obtain ⟨hwell', hgrows', hdir'⟩ := ih hwell (hdir there rfl) h
      exact ⟨hwell', hgrows.trans hgrows', hdir'⟩

/-- One file is written. The other files stay, and so do the directories. -/
structure Wrote (f : Folder) (place : Place) (bytes : ByteArray) (g : Folder) : Prop where
  file?_eq_some : g.file? place = some bytes
  file?_eq : ∀ p, p ≠ place → g.file? p = f.file? p
  isDirectory : ∀ p, f.content? p = some .directory → g.content? p = some .directory

theorem write_cases {done? : Option Unit} {names : List Text} {bytes : ByteArray}
    (hf : f.WellFormed) (h : (write names bytes).run.run f = (done?, g)) :
    g.WellFormed ∧
      (done? = none ∧ f.Grows g ∨ done? = some () ∧ ∃ place, Wrote f place bytes g) := by
  rw [run_write] at h
  dsimp only at h
  split at h
  · cases h
    exact ⟨hf, .inl ⟨rfl, .refl f⟩⟩
  rcases hway : (enterAll names.dropLast).run.run f with ⟨_ | here, k⟩
  · rw [hway] at h
    cases h
    obtain ⟨hwell, hgrows, -⟩ := leads_foldlM hf rfl hway
    exact ⟨hwell, .inl ⟨rfl, hgrows⟩⟩
  rw [hway] at h
  obtain ⟨hwell, hgrows, hdir⟩ := leads_foldlM hf rfl hway
  have hne : here ++ [names.getLast?.getD []] ≠ [] := by simp
  dsimp only at h
  split at h
  · cases h
    exact ⟨hwell, .inl ⟨rfl, hgrows⟩⟩
  next hnew =>
    cases h
    refine ⟨hwell.put (hdir here rfl) (fun hthere => absurd hthere hnew),
      .inr ⟨rfl, here ++ [names.getLast?.getD []], ?_, ?_, ?_⟩⟩
    · simp [file?, content?_put hne]
    · intro p hp
      rw [file?_put hne hp, hgrows.file?_eq]
    · intro p hp
      rw [content?_put hne, if_neg, hgrows.stays p _ hp]
      rintro rfl
      exact hnew (hgrows.stays _ _ hp)

/-- What stands at a path is made, or nothing but directories on the way to it. -/
theorem make_cases {done? : Option Unit} {path : Text} (hf : f.WellFormed)
    (h : (make path content).run.run f = (done?, g)) :
    g.WellFormed ∧ (f.Grows g ∨
      ∃ place bytes, content = .bytes bytes ∧ done? = some () ∧ Wrote f place bytes g) := by
  unfold make at h
  dsimp only at h
  by_cases hslash : (path.head? == some '/') = true
  · rw [if_pos hslash] at h
    cases h
    exact ⟨hf, .inl (.refl f)⟩
  rw [if_neg hslash] at h
  cases content with
  | directory =>
    dsimp only at h
    rw [run_bind] at h
    rcases hway : (enterAll (namesOf path)).run.run f with ⟨_ | here, k⟩
    · rw [hway] at h
      cases h
      obtain ⟨hwell, hgrows, -⟩ := leads_foldlM hf rfl hway
      exact ⟨hwell, .inl hgrows⟩
    · rw [hway] at h
      cases h
      obtain ⟨hwell, hgrows, -⟩ := leads_foldlM hf rfl hway
      exact ⟨hwell, .inl hgrows⟩
  | bytes bytes =>
    obtain ⟨hwell, ⟨-, hgrows⟩ | ⟨hdone, place, hwrote⟩⟩ := write_cases hf h
    · exact ⟨hwell, .inl hgrows⟩
    · exact ⟨hwell, .inr ⟨place, bytes, rfl, hdone, hwrote⟩⟩

/-- However a folder was made, each place stands once and in a directory, and every file has the
bytes that some path was to have. -/
theorem folders_stay_trees (paths : List (Text × FileContent)) :
    (ofPaths paths).WellFormed ∧ ∀ place bytes, (ofPaths paths).file? place = some bytes →
      ∃ path, (path, .bytes bytes) ∈ paths := by
  have hfold : ∀ f : Folder, f.WellFormed →
      let g := paths.foldl (fun f p => ((make p.1 p.2).run.run f).2) f
      g.WellFormed ∧ ∀ place bytes, g.file? place = some bytes →
        f.file? place = some bytes ∨ ∃ path, (path, .bytes bytes) ∈ paths := by
    induction paths with
    | nil => exact fun f hf => ⟨hf, fun _ _ h => .inl h⟩
    | cons entry paths ih =>
      obtain ⟨path, content⟩ := entry
      intro f hf
      have hrun : (make path content).run.run f = _ := rfl
      obtain ⟨hwell, hmade⟩ := make_cases hf hrun
      obtain ⟨hwell', hfiles⟩ := ih _ hwell
      refine ⟨hwell', fun place bytes h => ?_⟩
      rcases hfiles place bytes h with hfile | ⟨later, hlater⟩
      · obtain hgrows | ⟨written, other, rfl, -, hwrote⟩ := hmade
        · exact .inl ((hgrows.file?_eq place).symm.trans hfile)
        · by_cases hplace : place = written
          · subst hplace
            cases hfile.symm.trans hwrote.file?_eq_some
            exact .inr ⟨path, List.mem_cons_self⟩
          · exact .inl ((hwrote.file?_eq place hplace).symm.trans hfile)
      · exact .inr ⟨later, List.mem_cons_of_mem _ hlater⟩
  obtain ⟨hwell, hfiles⟩ := hfold [] ⟨List.nodup_nil, by simp⟩
  refine ⟨hwell, fun place bytes h => (hfiles place bytes h).resolve_left fun hnone => ?_⟩
  cases place <;> cases hnone

end SnippetEngine.Folder
