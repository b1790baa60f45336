-- Tables of compatible types. An entry adds its types to those that are accepted already and takes
-- none away, so what fits by one table fits by every table that accepts as much.
import Mathlib.Data.List.Induction
import Mathlib.Data.List.Nodup
import SnippetEngine.Config

namespace SnippetEngine.Compatibility

variable {table table' : Compatibility} {e expected actual ty : Text} {known types : List Text}

/-! ## Entries -/

theorem accepted_cons (entry : Text × List Text) (table : Compatibility) (e : Text) :
    accepted (entry :: table) e = if entry.1 = e then entry.2 else accepted table e := by
  unfold accepted
  by_cases h : entry.1 = e
  · simp [h]
  · simp [h]

theorem mem_addNew : ty ∈ addNew known types ↔ ty ∈ known ∨ ty ∈ types := by
  unfold addNew
  induction types generalizing known with
  | nil => simp
  | cons t types ih =>
    rw [List.foldl_cons, ih, List.mem_cons]
    split
    next h =>
      have hmem : t ∈ known := by simpa using h
      constructor
      · exact Or.imp_right .inr
      · rintro (hty | rfl | hty)
        · exact .inl hty
        · exact .inl hmem
        · exact .inr hty
    next => rw [List.mem_append, List.mem_singleton, or_assoc]

/-- The types that are known stay in front, and the new ones follow in the order in which they come
first. -/
theorem addNew_eq (known types : List Text) :
    addNew known types = known ++ (types.filter (!known.contains ·)).eraseDups := by
  induction types using List.reverseRecOn with
  | nil => simp [addNew]
  | append_singleton types t ih =>
    have hstep : addNew known (types ++ [t]) =
        if (addNew known types).contains t then addNew known types
        else addNew known types ++ [t] := List.foldl_append
    rw [hstep, List.filter_append, List.eraseDups_append, ← List.append_assoc, ← ih]
    by_cases hknown : t ∈ known
    · have hmem : t ∈ addNew known types := mem_addNew.mpr (.inl hknown)
      simp [hknown, hmem, List.removeAll]
    · by_cases htypes : t ∈ types
      · have hmem : t ∈ addNew known types := mem_addNew.mpr (.inr htypes)
        simp [hknown, htypes, hmem, List.removeAll]
      · have hmem : t ∉ addNew known types := by simp [mem_addNew, hknown, htypes]
        simp [hknown, htypes, hmem, List.removeAll, List.eraseDups_cons]

theorem nodup_addNew (h : known.Nodup) (types : List Text) : (addNew known types).Nodup := by
  induction types using List.reverseRecOn with
  | nil => exact h
  | append_singleton types t ih =>
    unfold addNew at ih ⊢
    rw [List.foldl_append, List.foldl_cons, List.foldl_nil]
    split
    next => exact ih
    next hnew =>
      rw [← List.concat_eq_append]
      exact List.Nodup.concat (by simpa using hnew) ih

theorem accepted_extend (expected : Text) (types : List Text) (table : Compatibility) (e : Text) :
    (extend expected types table).accepted e =
      if expected = e then addNew (table.accepted e) types else table.accepted e := by
  induction table with
  | nil =>
    rw [extend, accepted_cons]
    rfl
  | cons entry table ih =>
    obtain ⟨key, known⟩ := entry
    rw [extend]
    by_cases hkey : key = expected
    · subst hkey
      rw [if_pos rfl, accepted_cons, accepted_cons]
      by_cases h : key = e
      · simp [h]
      · simp [h]
    · rw [if_neg hkey, accepted_cons, accepted_cons, ih]
      by_cases h : key = e
      · subst h
        simp [Ne.symm hkey]
      · simp [h]

theorem nodup_accepted (h : ∀ entry ∈ table, entry.2.Nodup) (e : Text) :
    (table.accepted e).Nodup := by
  induction table with
  | nil => exact List.nodup_nil
  | cons entry table ih =>
    rw [List.forall_mem_cons] at h
    rw [accepted_cons]
    split
    · exact h.1
    · exact ih h.2

/-- The types that entries let `e` accept, as they are written. -/
def mentions (entries : List (Text × List Text)) (e : Text) : List Text :=
  (entries.filter (·.1 == e)).flatMap (·.2)

theorem mem_mentions {entries : List (Text × List Text)} :
    ty ∈ mentions entries e ↔ ∃ types, (e, types) ∈ entries ∧ ty ∈ types := by
  unfold mentions
  rw [List.mem_flatMap]
  constructor
  · rintro ⟨⟨key, types⟩, hentry, hty⟩
    obtain ⟨hmem, hkey⟩ := List.mem_filter.mp hentry
    obtain rfl : key = e := by simpa using hkey
    exact ⟨types, hmem, hty⟩
  · rintro ⟨types, hentry, hty⟩
    exact ⟨(e, types), List.mem_filter.mpr ⟨hentry, by simp⟩, hty⟩

/-- The table with further types, entry by entry. -/
def extendAll (table : Compatibility) (entries : List (Text × List Text)) : Compatibility :=
  entries.foldl (fun table (expected, types) => extend expected types table) table

theorem ofEntries_eq (entries : List (Text × List Text)) :
    ofEntries entries = standard.extendAll entries := rfl

theorem accepted_extendAll (table : Compatibility) (entries : List (Text × List Text)) (e : Text) :
    (table.extendAll entries).accepted e = addNew (table.accepted e) (mentions entries e) := by
  induction entries generalizing table with
  | nil => rfl
  | cons entry entries ih =>
    obtain ⟨expected, types⟩ := entry
    refine (ih _).trans ?_
    rw [accepted_extend]
    by_cases h : expected = e
    · simp [h, mentions, addNew, List.foldl_append]
    · simp [h, mentions]

/-- What a type accepts: what it accepts by the standard rules, and the types of its entries. -/
theorem mem_accepted_ofEntries {entries : List (Text × List Text)} :
    ty ∈ (ofEntries entries).accepted e ↔
      ty ∈ standard.accepted e ∨ ∃ types, (e, types) ∈ entries ∧ ty ∈ types := by
  rw [ofEntries_eq, accepted_extendAll, mem_addNew, mem_mentions]

/-- Of entries with different keys, one at most has the key. -/
theorem filter_eq_nil_or_singleton {α : Type} {entries : List (Text × α)}
    (h : (entries.map Prod.fst).Nodup) (key : Text) :
    entries.filter (·.1 == key) = [] ∨ ∃ a, entries.filter (·.1 == key) = [(key, a)] := by
  induction entries with
  | nil => exact .inl rfl
  | cons entry entries ih =>
    obtain ⟨k, a⟩ := entry
    rw [List.map_cons, List.nodup_cons] at h
    by_cases hkey : k = key
    · subst hkey
      have hrest : entries.filter (·.1 == k) = [] := by
        refine List.filter_eq_nil_iff.mpr fun other hother hsame => h.1 ?_
        exact List.mem_map.mpr ⟨other, hother, by simpa using hsame⟩
      exact .inr ⟨a, by simp [hrest]⟩
    · rw [List.filter_cons_of_neg (by simpa using hkey)]
      exact ih h.2

/-- Entries with different keys can stand in any order. -/
theorem filter_eq_of_perm {α : Type} {entries others : List (Text × α)}
    (h : (entries.map Prod.fst).Nodup) (hperm : others.Perm entries) (key : Text) :
    others.filter (·.1 == key) = entries.filter (·.1 == key) := by
  have hsame := hperm.filter (·.1 == key)
  obtain hnone | ⟨a, hone⟩ := filter_eq_nil_or_singleton h key
  · rw [hnone] at hsame ⊢
    exact hsame.eq_nil
  · rw [hone] at hsame ⊢
    exact hsame.eq_singleton

theorem mentions_of_perm {entries others : List (Text × List Text)}
    (h : (entries.map Prod.fst).Nodup) (hperm : others.Perm entries) (e : Text) :
    mentions others e = mentions entries e := by
  unfold mentions
  rw [filter_eq_of_perm h hperm]

/-! ## What fits -/

/-- More fits by a table only where it accepts more, and no more than what it accepts. -/
theorem isCompatible_iff {P : Prop}
    (h : actual ∈ table'.accepted expected ↔ actual ∈ table.accepted expected ∨ P) :
    table'.isCompatible expected actual = true ↔
      table.isCompatible expected actual = true ∨ actual ≠ [] ∧ P := by
  unfold isCompatible
  simp only [Bool.or_eq_true, Bool.and_eq_true, List.contains_iff_mem, h, Bool.not_eq_true',
    List.isEmpty_eq_false_iff]
  tauto

theorem isCompatible_mono (h : ∀ ty ∈ table.accepted expected, ty ∈ table'.accepted expected)
    (hfits : table.isCompatible expected actual = true) :
    table'.isCompatible expected actual = true := by
  unfold isCompatible at *
  simp only [Bool.or_eq_true, Bool.and_eq_true, List.contains_iff_mem] at *
  exact hfits.imp_right fun ⟨hne, hrules⟩ => ⟨hne, hrules.imp_right (h actual)⟩

end SnippetEngine.Compatibility

namespace SnippetEngine.Config

/-- Settings that have at least the types of other settings accept at least what those accept. -/
theorem isCompatible_mono {config config' : Config}
    (h : ∀ expected types, (expected, types) ∈ config.compatible → ∀ ty ∈ types,
      ∃ types', (expected, types') ∈ config'.compatible ∧ ty ∈ types') {expected actual : Text}
    (hfits : config.compatibility.isCompatible expected actual = true) :
    config'.compatibility.isCompatible expected actual = true := by
  refine Compatibility.isCompatible_mono (fun ty hty => ?_) hfits
  unfold compatibility at *
  rw [Compatibility.mem_accepted_ofEntries] at *
  refine hty.imp_right ?_
  rintro ⟨types, hentry, hmem⟩
  exact h expected types hentry ty hmem

end SnippetEngine.Config

/-! ## The law -/

namespace SnippetEngine.Compatibility

/-- By a table that was extended, a value fits if it fits by the standard rules, or has a type and
an entry lets it in. So no entry takes anything away, and neither the order of the entries nor how
often they stand has a say. A type accepts what it accepts by the standard rules and behind that the
further types, each once and where it comes first. The table of settings is the one that its entries
make, and it accepts the same in whatever order they stand. -/
theorem tables_grow_by_their_entries (entries : List (Text × List Text)) :
    let table := standard.extendAll entries
    (∀ e a, table.isCompatible e a = true ↔ standard.isCompatible e a = true ∨
      a ≠ [] ∧ ∃ types, (e, types) ∈ entries ∧ a ∈ types) ∧
    (∀ expected types e a, table.isCompatible e a = true →
      (extend expected types table).isCompatible e a = true) ∧
    (∀ others, (∀ entry, entry ∈ others ↔ entry ∈ entries) →
      ∀ e a, (standard.extendAll others).isCompatible e a = table.isCompatible e a) ∧
    (∀ e, (table.accepted e).Nodup ∧ table.accepted e = standard.accepted e ++
      ((mentions entries e).filter (!(standard.accepted e).contains ·)).eraseDups) ∧
    ∀ config : Config,
      (config.compatible = entries → config.compatibility = table) ∧
      (config.compatible.Perm entries → (entries.map Prod.fst).Nodup →
        ∀ e, config.compatibility.accepted e = table.accepted e) := by
  intro table
  have hfits : ∀ (entries : List (Text × List Text)) (e a : Text),
      (standard.extendAll entries).isCompatible e a = true ↔
        standard.isCompatible e a = true ∨ a ≠ [] ∧ ∃ types, (e, types) ∈ entries ∧ a ∈ types :=
    fun entries e a => isCompatible_iff mem_accepted_ofEntries
  refine ⟨hfits entries, fun expected types e a h => ?_, fun others hsame e a => ?_, fun e => ?_,
    fun config => ⟨?_, fun hperm hkeys e => ?_⟩⟩
  · refine isCompatible_mono (fun ty hty => ?_) h
    rw [accepted_extend]
    split
    · exact mem_addNew.mpr (.inl hty)
    · exact hty
  · rw [Bool.eq_iff_iff, hfits, hfits]
    simp only [hsame]
  · rw [accepted_extendAll]
    have hstandard : ∀ entry ∈ standard, entry.2.Nodup := by decide +kernel
    exact ⟨nodup_addNew (nodup_accepted hstandard e) _, addNew_eq _ _⟩
  · rintro rfl
    rfl
  · rw [Config.compatibility, ofEntries_eq, accepted_extendAll, accepted_extendAll,
      mentions_of_perm hkeys hperm]

/-- `int` accepts `char` already, and `long` and `Circle` come behind. -/
example :
    let entries := [("int", ["long", "char"]), ("Shape", ["Circle"]), ("int", ["Circle", "long"])].map
      fun (expected, types) => (expected.toList, types.map String.toList)
    (standard.extendAll entries).accepted "int".toList =
      ["char", "short", "byte", "long", "Circle"].map String.toList := by
  decide +kernel

end SnippetEngine.Compatibility
