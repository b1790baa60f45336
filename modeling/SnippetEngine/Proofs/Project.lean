-- The settings of a project. They come from the first place where a file is, and name each type
-- once. So neither the order of the keys there nor that of the types has a say in what is accepted.
import SnippetEngine.Project
import SnippetEngine.Proofs.Compatibility
import SnippetEngine.Proofs.Toml

namespace SnippetEngine

/-! ## Records -/

namespace Value

variable {entries others : List (Text × Value)}

theorem field?_of_perm (h : (entries.map Prod.fst).Nodup) (hperm : others.Perm entries)
    (place : Nat) (key : String) :
    field? (.table others) place key = field? (.table entries) place key := by
  unfold field? lookup?
  dsimp only
  rw [← List.head?_filter, ← List.head?_filter, Compatibility.filter_eq_of_perm h hperm]

theorem fieldOr_of_perm {α : Type} (h : (entries.map Prod.fst).Nodup) (hperm : others.Perm entries)
    (place : Nat) (key : String) (read : Value → Option α) (absent : α) :
    fieldOr (.table others) place key read absent =
      fieldOr (.table entries) place key read absent := by
  unfold fieldOr
  rw [field?_of_perm h hperm]

theorem holdReadable_iff : holdReadable entries = true ↔ ∀ entry ∈ entries, entry.2.isReadable := by
  induction entries with
  | nil => simp [holdReadable]
  | cons entry entries ih =>
    obtain ⟨key, v⟩ := entry
    simp [holdReadable, ih]

theorem isRecord_of_perm (hperm : others.Perm entries) (fields : List String) :
    isRecord fields (.table others) = isRecord fields (.table entries) := by
  unfold isRecord
  rw [Bool.eq_iff_iff, holdReadable_iff, holdReadable_iff]
  simp only [List.mem_filter, hperm.mem_iff]

theorem HasDistinctKeys.field? {record v : Value} {place : Nat} {key : String}
    (hr : record.HasDistinctKeys) (h : record.field? place key = some v) : v.HasDistinctKeys := by
  unfold Value.field? at h
  split at h
  · obtain ⟨entry, hentry, rfl⟩ := Option.map_eq_some_iff.mp h
    exact (hasDistinctKeys_table.mp hr).2 entry (List.mem_of_find?_eq_some hentry)
  · exact hasDistinctKeys_list.mp hr v (List.mem_of_getElem? h)
  · cases h

/-- What is read of a table has its keys. -/
theorem keys_of_tableOf? {α : Type} {item : Value → Option α} {v : Value} {read : List (Text × α)}
    (h : tableOf? item v = some read) :
    ∃ entries, v = .table entries ∧ read.map Prod.fst = entries.map Prod.fst := by
  unfold tableOf? at h
  split at h
  case h_2 => cases h
  case h_1 entries =>
  refine ⟨entries, rfl, ?_⟩
  induction entries generalizing read with
  | nil =>
    cases h
    rfl
  | cons entry entries ih =>
    rw [List.mapM_cons] at h
    obtain ⟨first, hfirst, h⟩ := Option.bind_eq_some_iff.mp h
    obtain ⟨rest, hrest, h⟩ := Option.bind_eq_some_iff.mp h
    obtain ⟨a, -, rfl⟩ := Option.map_eq_some_iff.mp hfirst
    cases h
    exact congrArg (entry.1 :: ·) (ih hrest)

end Value

/-- Settings are read alike in whatever order their keys stand. -/
theorem Config.ofValue?_of_perm {entries others : List (Text × Value)}
    (h : (entries.map Prod.fst).Nodup) (hperm : others.Perm entries) :
    Config.ofValue? (.table others) = Config.ofValue? (.table entries) := by
  unfold Config.ofValue?
  dsimp only
  rw [Value.isRecord_of_perm hperm, Value.fieldOr_of_perm h hperm,
    Value.fieldOr_of_perm h hperm, Value.fieldOr_of_perm h hperm]

theorem Parameter.ofValue?_of_perm {entries others : List (Text × Value)}
    (h : (entries.map Prod.fst).Nodup) (hperm : others.Perm entries) :
    Parameter.ofValue? (.table others) = Parameter.ofValue? (.table entries) := by
  unfold Parameter.ofValue?
  simp only [Value.fieldOr_of_perm h hperm, Value.field?_of_perm h hperm,
    Value.isRecord_of_perm hperm]

theorem Effect.ofValue?_of_perm {entries others : List (Text × Value)}
    (h : (entries.map Prod.fst).Nodup) (hperm : others.Perm entries) :
    Effect.ofValue? (.table others) = Effect.ofValue? (.table entries) := by
  unfold Effect.ofValue?
  simp only [Value.fieldOr_of_perm h hperm, Value.field?_of_perm h hperm,
    Value.isRecord_of_perm hperm]

/-- Settings that are read name each type once. -/
theorem Config.nodup_compatible {v : Value} {c : Config} (h : Config.ofValue? v = some c)
    (hv : v.HasDistinctKeys) : (c.compatible.map Prod.fst).Nodup := by
  unfold Config.ofValue? at h
  dsimp only at h
  split at h
  · cases h
  obtain ⟨_, -, h⟩ := Option.bind_eq_some_iff.mp h
  obtain ⟨_, -, h⟩ := Option.bind_eq_some_iff.mp h
  obtain ⟨compatible, hcompatible, h⟩ := Option.bind_eq_some_iff.mp h
  cases h
  unfold Value.fieldOr at hcompatible
  split at hcompatible
  · cases hcompatible
    exact List.nodup_nil
  next w hw =>
    obtain ⟨entries, rfl, hkeys⟩ := Value.keys_of_tableOf? hcompatible
    dsimp only
    rw [hkeys]
    exact (Value.hasDistinctKeys_table.mp (hv.field? hw)).1

/-! ## Projects -/

namespace Project

/-- The settings are those of the first place where a file is, and there are none without a file. -/
theorem settings_come_from_the_first_file (f : Folder) :
    (∀ path ∈ Config.locations, f.file? (Folder.namesOf path) = none) ∧ loadConfig f = .ok none ∨
      ∃ before path after bytes, Config.locations = before ++ path :: after ∧
        (∀ p ∈ before, f.file? (Folder.namesOf p) = none) ∧
        f.file? (Folder.namesOf path) = some bytes ∧ loadConfig f = some <$> readConfig bytes := by
  unfold loadConfig configPath?
  rcases hfind : Config.locations.find? fun path => (f.file? (Folder.namesOf path)).isSome with
    _ | path
  · refine .inl ⟨fun path hpath => ?_, rfl⟩
    simpa using List.find?_eq_none.mp hfind path hpath
  · obtain ⟨hfile, before, after, hplaces, hbefore⟩ := List.find?_eq_some_iff_append.mp hfind
    obtain ⟨bytes, hbytes⟩ := Option.isSome_iff_exists.mp hfile
    refine .inr ⟨before, path, after, bytes, hplaces, fun p hp => ?_, hbytes, ?_⟩
    · simpa using hbefore p hp
    · rw [Option.bind_some, hbytes]

/-- Settings that are loaded name each type once. -/
theorem nodup_compatible_of_loadConfig {f : Folder} {c : Config}
    (h : loadConfig f = .ok (some c)) : (c.compatible.map Prod.fst).Nodup := by
  obtain ⟨-, hnone⟩ | ⟨_, _, _, bytes, -, -, -, hread⟩ := settings_come_from_the_first_file f
  · cases hnone.symm.trans h
  · rw [h] at hread
    unfold readConfig at hread
    split at hread
    · cases hread
    next content _ =>
      split at hread
      · cases hread
      next config hconfig =>
        cases hread
        obtain ⟨v, hv, hc⟩ := Option.bind_eq_some_iff.mp hconfig
        exact Config.nodup_compatible hc (Toml.tables_hold_what_their_pairs_hold hv).1

/-- Loaded settings accept the same types in whatever order their entries stand. -/
theorem accepted_of_loadConfig {f : Folder} {c : Config} (h : loadConfig f = .ok (some c))
    {entries : List (Text × List Text)} (hperm : entries.Perm c.compatible) (e : Text) :
    (Compatibility.ofEntries entries).accepted e = c.compatibility.accepted e := by
  rw [Config.compatibility, Compatibility.ofEntries_eq, Compatibility.ofEntries_eq,
    Compatibility.accepted_extendAll, Compatibility.accepted_extendAll,
    Compatibility.mentions_of_perm (nodup_compatible_of_loadConfig h) hperm]

end Project

end SnippetEngine
