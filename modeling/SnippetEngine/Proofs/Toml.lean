-- What a table holds that is read. A statement adds what its value holds, under the keys of the
-- last header and its own, and takes nothing away; so in the end the table holds what the values of
-- its pairs hold, each under the keys that lead to it. No table comes to have a key twice.
import Mathlib.Data.List.Nodup
import SnippetEngine.Toml.Parse

namespace SnippetEngine

/-! ## What data holds -/

namespace Value

/-- True for what holds no other data. -/
def isPlain : Value → Bool
  | list _ | table _ => false
  | _ => true

/-- The plain data `u` stands in the data, under these keys from the outside in. -/
inductive Holds : (data u : Value) → List Text → Prop
  | self {u : Value} (h : u.isPlain = true) : Holds u u []
  | item {items : List Value} {v u : Value} {path : List Text} (hv : v ∈ items)
      (h : Holds v u path) : Holds (list items) u path
  | entry {entries : List (Text × Value)} {key : Text} {v u : Value} {path : List Text}
      (hv : (key, v) ∈ entries) (h : Holds v u path) : Holds (table entries) u (key :: path)

/-- No table in the data has a key twice. -/
inductive HasDistinctKeys : Value → Prop
  | plain {v : Value} (h : v.isPlain = true) : HasDistinctKeys v
  | list {items : List Value} (h : ∀ v ∈ items, HasDistinctKeys v) : HasDistinctKeys (list items)
  | table {entries : List (Text × Value)} (hkeys : (entries.map Prod.fst).Nodup)
      (h : ∀ entry ∈ entries, HasDistinctKeys entry.2) : HasDistinctKeys (table entries)

section Data

variable {u v : Value} {path : List Text} {items : List Value} {entries more : List (Text × Value)}

theorem holds_list : (list items).Holds u path ↔ ∃ v ∈ items, v.Holds u path := by
  constructor
  · rintro (hplain | ⟨hv, h⟩ | _)
    · cases hplain
    · exact ⟨_, hv, h⟩
  · rintro ⟨v, hv, h⟩
    exact .item hv h

theorem holds_table : (table entries).Holds u path ↔
    ∃ key rest v, path = key :: rest ∧ (key, v) ∈ entries ∧ v.Holds u rest := by
  constructor
  · rintro (hplain | _ | ⟨hv, h⟩)
    · cases hplain
    · exact ⟨_, _, _, rfl, hv, h⟩
  · rintro ⟨key, rest, v, rfl, hv, h⟩
    exact .entry hv h

theorem not_holds_nil : ¬ (table []).Holds u path := by
  simp [holds_table]

theorem holds_cons {key : Text} : (table ((key, v) :: entries)).Holds u path ↔
    (∃ rest, path = key :: rest ∧ v.Holds u rest) ∨ (table entries).Holds u path := by
  rw [holds_table, holds_table]
  constructor
  · rintro ⟨k, rest, w, rfl, hw, h⟩
    rcases List.mem_cons.mp hw with hfirst | hw
    · cases hfirst
      exact .inl ⟨rest, rfl, h⟩
    · exact .inr ⟨k, rest, w, rfl, hw, h⟩
  · rintro (⟨rest, rfl, h⟩ | ⟨k, rest, w, rfl, hw, h⟩)
    · exact ⟨key, rest, v, rfl, List.mem_cons_self, h⟩
    · exact ⟨k, rest, w, rfl, List.mem_cons_of_mem _ hw, h⟩

theorem holds_append : (table (entries ++ more)).Holds u path ↔
    (table entries).Holds u path ∨ (table more).Holds u path := by
  induction entries with
  | nil => simp [not_holds_nil]
  | cons entry entries ih =>
    obtain ⟨key, v⟩ := entry
    rw [List.cons_append, holds_cons, holds_cons, ih, or_assoc]

theorem hasDistinctKeys_list : (list items).HasDistinctKeys ↔ ∀ v ∈ items, v.HasDistinctKeys := by
  constructor
  · rintro (hplain | h | _)
    · cases hplain
    · exact h
  · exact .list

theorem hasDistinctKeys_table : (table entries).HasDistinctKeys ↔
    (entries.map Prod.fst).Nodup ∧ ∀ entry ∈ entries, entry.2.HasDistinctKeys := by
  constructor
  · rintro (hplain | _ | ⟨hkeys, h⟩)
    · cases hplain
    · exact ⟨hkeys, h⟩
  · exact fun ⟨hkeys, h⟩ => .table hkeys h

theorem hasDistinctKeys_nil : (table []).HasDistinctKeys := .table List.nodup_nil (by simp)

end Data

/-! ## Data that is added to -/

/-- The new data holds what the old data holds and `N` besides, and no table in it has a key twice
if none in the old data has. -/
structure Gains (N : Value → List Text → Prop) (old new : Value) : Prop where
  holds : ∀ u path, new.Holds u path ↔ old.Holds u path ∨ N u path
  distinct : old.HasDistinctKeys → new.HasDistinctKeys

/-- What `N` says of the rest holds behind the keys `path`. -/
def Under (path : List Text) (N : Value → List Text → Prop) (u : Value)
    (whole : List Text) : Prop :=
  ∃ rest, whole = path ++ rest ∧ N u rest

section Gains

variable {N M : Value → List Text → Prop} {v w x : Value}

theorem under_nil (N : Value → List Text → Prop) : Under [] N = N := by
  funext u path
  simp [Under]

theorem under_under (path rest : List Text) (N : Value → List Text → Prop) :
    Under path (Under rest N) = Under (path ++ rest) N := by
  funext u whole
  apply propext
  constructor
  · rintro ⟨_, rfl, q, rfl, h⟩
    exact ⟨q, by rw [List.append_assoc], h⟩
  · rintro ⟨q, rfl, h⟩
    exact ⟨rest ++ q, by rw [List.append_assoc], q, rfl, h⟩

theorem under_false (path : List Text) : Under path (fun _ _ => False) = fun _ _ => False := by
  funext u whole
  simp [Under]

theorem Gains.refl (v : Value) : Gains (fun _ _ => False) v v := ⟨by simp, id⟩

theorem Gains.trans (h : Gains N v w) (h' : Gains M w x) :
    Gains (fun u path => N u path ∨ M u path) v x where
  holds u path := by rw [h'.holds, h.holds, or_assoc]
  distinct := h'.distinct ∘ h.distinct

theorem Gains.congr (h : Gains N v w) (hiff : ∀ u path, N u path ↔ M u path) : Gains M v w where
  holds u path := by rw [h.holds, hiff]
  distinct := h.distinct

end Gains

end Value

namespace Toml

open Value

/-! ## Changes of a table -/

namespace Table

theorem toValues_eq (t : Table) : toValues t = t.map fun (key, entry) => (key, entry.toValue) := by
  induction t with
  | nil => rfl
  | cons entry t ih =>
    rw [toValues, ih]
    rfl

theorem listToValues_eq (ts : List Table) :
    listToValues ts = ts.map fun t => .table (toValues t) := by
  induction ts with
  | nil => rfl
  | cons t ts ih =>
    rw [listToValues, ih]
    rfl

/-- The data that a table stands for. -/
def toValue (t : Table) : Value := .table (toValues t)

variable {key : Text} {t t' : Table} {N : Value → List Text → Prop}

/-- The one entry of the key is changed, or a new one goes behind the others. -/
theorem alter_eq_some {f : Option Entry → Option Entry} (h : t.alter key f = some t') :
    ∃ before old after new, key ∉ before.map Prod.fst ∧ (old = none → after = []) ∧
      f old = some new ∧ t = before ++ old.toList.map (key, ·) ++ after ∧
      t' = before ++ (key, new) :: after := by
  induction t generalizing t' with
  | nil =>
    obtain ⟨new, hnew, rfl⟩ := Option.map_eq_some_iff.mp h
    exact ⟨[], none, [], new, by simp, fun _ => rfl, hnew, rfl, rfl⟩
  | cons entry t ih =>
    obtain ⟨k, e⟩ := entry
    rw [alter] at h
    split at h
    next hk =>
      subst hk
      obtain ⟨new, hnew, rfl⟩ := Option.map_eq_some_iff.mp h
      exact ⟨[], some e, t, new, by simp, nofun, hnew, rfl, rfl⟩
    next hk =>
      obtain ⟨rest, hrest, rfl⟩ := Option.map_eq_some_iff.mp h
      obtain ⟨before, old, after, new, hbefore, hafter, hnew, rfl, rfl⟩ := ih hrest
      refine ⟨(k, e) :: before, old, after, new, ?_, hafter, hnew, rfl, rfl⟩
      simpa [Ne.symm hk] using hbefore

/-- An entry that is missing counts as an empty table. -/
def valueOf (old : Option Entry) : Value := (old.map Entry.toValue).getD (.table [])

theorem gains_alter {f : Option Entry → Option Entry}
    (hf : ∀ old new, f old = some new → Gains N (valueOf old) new.toValue)
    (h : t.alter key f = some t') : Gains (Under [key] N) t.toValue t'.toValue := by
  obtain ⟨before, old, after, new, hbefore, hafter, hnew, rfl, rfl⟩ := alter_eq_some h
  obtain ⟨hholds, hdistinct⟩ := hf old new hnew
  simp only [toValue, toValues_eq, List.map_append, List.map_cons]
  constructor
  · intro u path
    have hentry : (∃ rest, path = key :: rest ∧ new.toValue.Holds u rest) ↔
        (Value.table ((old.toList.map (key, ·)).map fun (k, e) => (k, e.toValue))).Holds u path ∨
          Under [key] N u path := by
      cases old with
      | none => simp [hholds, valueOf, Under, not_holds_nil]
      | some e =>
        simp [hholds, valueOf, Under, not_holds_nil, holds_cons, and_or_left, exists_or]
    rw [holds_append, holds_cons, holds_append, holds_append, hentry]
    tauto
  · rw [hasDistinctKeys_table, hasDistinctKeys_table]
    rintro ⟨hkeys, hall⟩
    have hold : (valueOf old).HasDistinctKeys := by
      cases old with
      | none => exact hasDistinctKeys_nil
      | some e => exact hall (key, e.toValue) (by simp)
    refine ⟨?_, fun entry hentry => ?_⟩
    · cases old with
      | none =>
        obtain rfl := hafter rfl
        have hnew := List.Nodup.concat hbefore (by simpa [Function.comp_def] using hkeys)
        simpa [Function.comp_def] using hnew
      | some e => simpa using hkeys
    · rcases List.mem_append.mp hentry with hfirst | hrest
      · exact hall entry (by simp [hfirst])
      · rcases List.mem_cons.mp hrest with rfl | hlast
        · exact hdistinct hold
        · exact hall entry (by simp [hlast])

theorem alterLast_eq_some {f : Table → Option Table} {ts ts' : List Table}
    (h : alterLast f ts = some ts') :
    ∃ before last last', ts = before ++ [last] ∧ f last = some last' ∧ ts' = before ++ [last'] := by
  induction ts generalizing ts' with
  | nil => cases h
  | cons t ts ih =>
    cases ts with
    | nil =>
      obtain ⟨last', hlast, rfl⟩ := Option.map_eq_some_iff.mp h
      exact ⟨[], t, last', rfl, hlast, rfl⟩
    | cons s ts =>
      obtain ⟨rest, hrest, rfl⟩ := Option.map_eq_some_iff.mp h
      obtain ⟨before, last, last', hts, hlast, rfl⟩ := ih hrest
      exact ⟨t :: before, last, last', congrArg (t :: ·) hts, hlast, rfl⟩

theorem gains_alterLast {f : Table → Option Table} {ts ts' : List Table}
    (hf : ∀ t t', f t = some t' → Gains N t.toValue t'.toValue) (h : alterLast f ts = some ts') :
    Gains N (.list (listToValues ts)) (.list (listToValues ts')) := by
  obtain ⟨before, last, last', rfl, hlast, rfl⟩ := alterLast_eq_some h
  obtain ⟨hholds, hdistinct⟩ := hf last last' hlast
  simp only [listToValues_eq, List.map_append, List.map_cons, List.map_nil]
  constructor
  · intro u path
    have hlast := hholds u path
    simp only [toValue] at hlast
    simp only [holds_list, List.mem_append, List.mem_singleton, or_and_right, exists_or,
      exists_eq_left, hlast, or_assoc]
  · rw [hasDistinctKeys_list, hasDistinctKeys_list]
    intro hall v hv
    rcases List.mem_append.mp hv with hfirst | hlast
    · exact hall v (List.mem_append_left _ hfirst)
    · rw [List.mem_singleton.mp hlast]
      exact hdistinct (hall _ (by simp [toValue]))

/-- What a change adds to a table, it adds under the path at which the table stands. -/
theorem gains_within {f : Table → Option Table}
    (hf : ∀ t t', f t = some t' → Gains N t.toValue t'.toValue) {path : List Text}
    (h : within f path t = some t') : Gains (Under path N) t.toValue t'.toValue := by
  induction path generalizing t t' with
  | nil =>
    rw [under_nil]
    exact hf t t' h
  | cons key path ih =>
    rw [← List.singleton_append, ← under_under]
    refine gains_alter (fun old new hnew => ?_) h
    rcases old with _ | _ | ⟨origin, sub⟩ | elements
    · obtain ⟨sub, hsub, rfl⟩ := Option.map_eq_some_iff.mp hnew
      exact ih hsub
    · cases hnew
    · obtain ⟨sub', hsub, rfl⟩ := Option.map_eq_some_iff.mp hnew
      exact ih hsub
    · obtain ⟨elements', helements, rfl⟩ := Option.map_eq_some_iff.mp hnew
      exact gains_alterLast (fun _ _ => ih) helements

/-- What a value holds is added under the path that it is set at. -/
theorem gains_assign {v : Value} (hv : v.HasDistinctKeys) {path : List Text}
    (h : assign v path t = some t') : Gains (Under path v.Holds) t.toValue t'.toValue := by
  induction path generalizing t t' with
  | nil => cases h
  | cons key path ih =>
    rw [← List.singleton_append, ← under_under]
    cases path with
    | nil =>
      rw [under_nil]
      refine gains_alter (fun old new hnew => ?_) h
      cases old with
      | none =>
        cases hnew
        exact ⟨fun u path => by simp [valueOf, not_holds_nil, Entry.toValue], fun _ => hv⟩
      | some e => cases hnew
    | cons next path =>
      refine gains_alter (fun old new hnew => ?_) h
      rcases old with _ | _ | ⟨origin, sub⟩ | elements
      · obtain ⟨sub, hsub, rfl⟩ := Option.map_eq_some_iff.mp hnew
        exact ih hsub
      · cases hnew
      · cases origin with
        | header => cases hnew
        | implied | dotted =>
          obtain ⟨sub', hsub, rfl⟩ := Option.map_eq_some_iff.mp hnew
          exact ih hsub
      · dsimp only at hnew
        split at hnew
        · cases hnew
        · obtain ⟨elements', helements, rfl⟩ := Option.map_eq_some_iff.mp hnew
          exact gains_alterLast (fun _ _ => ih) helements

theorem gains_openTable (h : openTable key t = some t') :
    Gains (fun _ _ => False) t.toValue t'.toValue := by
  rw [← under_false [key]]
  refine gains_alter (fun old new hnew => ?_) h
  rcases old with _ | _ | ⟨origin, sub⟩ | _
  · cases hnew
    exact .refl _
  · cases hnew
  · cases origin with
    | implied =>
      cases hnew
      exact .refl _
    | header | dotted => cases hnew
  · cases hnew

/-- A table that is added to an array is empty. -/
theorem gains_openElement (h : openElement key t = some t') :
    Gains (fun _ _ => False) t.toValue t'.toValue := by
  rw [← under_false [key]]
  refine gains_alter (fun old new hnew => ?_) h
  rcases old with _ | _ | _ | elements
  · cases hnew
    refine ⟨fun u path => ?_, fun _ => .list ?_⟩
    · simp [valueOf, Entry.toValue, listToValues_eq, toValues_eq, holds_list, not_holds_nil]
    · simp [listToValues_eq, toValues_eq, hasDistinctKeys_nil]
  · cases hnew
  · cases hnew
  · cases hnew
    refine ⟨fun u path => ?_, ?_⟩
    · simp [valueOf, Entry.toValue, listToValues_eq, toValues_eq, holds_list, not_holds_nil,
        or_and_right, exists_or]
    · simp only [valueOf, Option.map_some, Option.getD_some, Entry.toValue, listToValues_eq,
        List.map_append, hasDistinctKeys_list]
      intro hall v hv
      rcases List.mem_append.mp hv with hfirst | hlast
      · exact hall v hfirst
      · rw [List.mem_singleton.mp hlast]
        exact hasDistinctKeys_nil

end Table

/-! ## What readers read -/

namespace Reader

variable {α β : Type} {P : α → Prop} {Q : β → Prop} {x : Reader α} {f : α → Reader β}

/-- All that is read has the property. -/
def Gives (x : Reader α) (P : α → Prop) : Prop := ∀ t a rest, x t = some (a, rest) → P a

theorem gives_pure {a : α} (h : P a) : Gives (pure a) P := by
  rintro t _ rest ⟨⟩
  exact h

theorem gives_failure : Gives (failure : Reader α) P := nofun

theorem gives_bind (hx : Gives x P) (hf : ∀ a, P a → Gives (f a) Q) : Gives (x >>= f) Q := by
  intro t b rest h
  obtain ⟨⟨a, r⟩, ha, hb⟩ := Option.bind_eq_some_iff.mp h
  exact hf a (hx t a r ha) r b rest hb

/-- What the first reader reads does not matter. -/
theorem gives_bind_of_forall (hf : ∀ a, Gives (f a) Q) : Gives (x >>= f) Q :=
  gives_bind (P := fun _ => True) (fun _ _ _ _ => trivial) fun a _ => hf a

theorem gives_lift {o : Option α} (h : ∀ a, o = some a → P a) : Gives (liftM o) P := by
  intro t a rest hread
  obtain ⟨b, hb, hpure⟩ := Option.bind_eq_some_iff.mp hread
  cases hpure
  exact h _ hb

end Reader

open Reader

theorem gives_itemsTo {α : Type} {item : Reader α} {P : α → Prop} (h : Gives item P)
    (close : Char) : Gives (itemsTo item close) fun items => ∀ a ∈ items, P a := by
  have hitems : ∀ most, Gives (itemsUntil item close most) fun items => ∀ a ∈ items, P a := by
    intro most
    induction most with
    | zero => exact gives_failure
    | succ most ih =>
      refine gives_bind_of_forall fun _ => gives_bind_of_forall fun closed => ?_
      cases closed with
      | true => exact gives_pure (by simp)
      | false =>
        refine gives_bind h fun first hfirst => gives_bind_of_forall fun _ =>
          gives_bind_of_forall fun more => ?_
        cases more with
        | true => exact gives_bind ih fun rest hrest => gives_pure (by simpa [hfirst] using hrest)
        | false => exact gives_bind_of_forall fun _ => gives_pure (by simpa using hfirst)
  exact fun t => hitems _ t

theorem isPlain_sizedInteger (n : Int) : (sizedInteger n).isPlain = true := by
  unfold sizedInteger
  split
  · split <;> rfl
  · split <;> rfl

theorem isPlain_unsignedInteger? {base : Nat} {isDigit : Char → Bool} {t : Text} {v : Value}
    (h : unsignedInteger? base isDigit t = some v) : v.isPlain = true := by
  obtain ⟨digits, -, h⟩ := Option.bind_eq_some_iff.mp h
  grind [isPlain, isPlain_sizedInteger]

theorem isPlain_decimalInteger? {t : Text} {v : Value} (h : decimalInteger? t = some v) :
    v.isPlain = true := by
  simp only [decimalInteger?, Option.bind_eq_bind] at h
  split at h
  · cases h
  obtain ⟨-, -, h⟩ := Option.bind_eq_some_iff.mp h
  obtain ⟨digits, -, h⟩ := Option.bind_eq_some_iff.mp h
  grind [isPlain, isPlain_sizedInteger]

theorem isPlain_integer? {t : Text} {v : Value} (h : integer? t = some v) : v.isPlain = true := by
  unfold integer? at h
  split at h
  · exact isPlain_unsignedInteger? h
  · exact isPlain_unsignedInteger? h
  · exact isPlain_unsignedInteger? h
  · exact isPlain_decimalInteger? h

theorem isPlain_fraction? {t : Text} {v : Value} (h : fraction? t = some v) :
    v.isPlain = true := by
  simp only [fraction?, decimalFraction?, Option.bind_eq_bind] at h
  grind [isPlain, Option.bind_eq_some_iff]

/-- What is written without quotes and brackets is plain. -/
theorem isPlain_bareValue? {t : Text} {v : Value} (h : bareValue? t = some v) :
    v.isPlain = true := by
  unfold bareValue? number? at h
  split at h
  · cases h
    rfl
  split at h
  · cases h
    rfl
  split at h
  · cases h
    rfl
  rcases Option.or_eq_some_iff.mp h with hinteger | ⟨-, hfraction⟩
  · exact isPlain_integer? hinteger
  · exact isPlain_fraction? hfraction

theorem gives_scalarValue : Gives scalarValue HasDistinctKeys := by
  refine gives_bind_of_forall fun double => gives_bind_of_forall fun single => ?_
  split
  · exact gives_bind_of_forall fun _ => gives_pure (.plain rfl)
  · intro t v rest h
    change bareValue t = _ at h
    unfold bareValue at h
    split at h
    · cases h
    · obtain ⟨w, hw, hv⟩ := Option.map_eq_some_iff.mp h
      cases hv
      exact .plain (isPlain_bareValue? hw)

theorem gives_pair {item : Reader Value} {P : Value → Prop} (h : Gives item P)
    (space : Reader Unit) : Gives (pair space item) fun p => P p.2 :=
  gives_bind_of_forall fun _ => gives_bind_of_forall fun _ => gives_bind_of_forall fun _ =>
    gives_bind_of_forall fun _ => gives_bind h fun _ hv => gives_pure hv

/-- The table of pairs holds what their values hold, under their keys. -/
theorem Table.gains_ofPairs {pairs : List (List Text × Value)} {t : Table}
    (hv : ∀ p ∈ pairs, p.2.HasDistinctKeys) (h : ofPairs pairs = some t) :
    Gains (fun u path => ∃ p ∈ pairs, Under p.1 p.2.Holds u path) (.table []) t.toValue := by
  have hfold : ∀ start, pairs.foldlM (fun t p => assign p.2 p.1 t) start = some t →
      Gains (fun u path => ∃ p ∈ pairs, Under p.1 p.2.Holds u path) start.toValue t.toValue := by
    clear h
    induction pairs with
    | nil =>
      rintro _ ⟨⟩
      exact (Gains.refl _).congr (by simp)
    | cons p pairs ih =>
      intro start h
      obtain ⟨next, hnext, hrest⟩ := Option.bind_eq_some_iff.mp h
      have hfirst := gains_assign (hv p List.mem_cons_self) hnext
      exact (hfirst.trans (ih (fun q hq => hv q (List.mem_cons_of_mem p hq)) next hrest)).congr
        (by simp)
  exact hfold [] h

/-- However deep the brackets are, no table in a value has a key twice. -/
theorem gives_value (depth : Nat) : Gives (value depth) HasDistinctKeys := by
  induction depth with
  | zero => exact gives_scalarValue
  | succ depth ih =>
    refine gives_bind_of_forall fun list => ?_
    cases list with
    | true => exact gives_bind (gives_itemsTo ih _) fun items hitems => gives_pure (.list hitems)
    | false =>
      refine gives_bind_of_forall fun table => ?_
      cases table with
      | true =>
        refine gives_bind (gives_itemsTo (gives_pair ih filler) _) fun pairs hpairs => ?_
        refine gives_bind (gives_lift (P := fun t => (Table.toValue t).HasDistinctKeys) ?_) ?_
        · exact fun t ht => (Table.gains_ofPairs hpairs ht).distinct hasDistinctKeys_nil
        · exact fun t ht => gives_pure ht
      | false => exact gives_scalarValue

namespace Statement

/-- The header that pairs stand under behind the statement. -/
def header (here : List Text) : Statement → List Text
  | pair _ _ => here
  | table path | element path => path

/-- The pair of the statement, with all the keys that lead to its value. -/
def pair? (here : List Text) : Statement → Option (List Text × Value)
  | pair path v => some (here ++ path, v)
  | table _ | element _ => none

/-- The pairs of statements, with all the keys that lead to their values. -/
def pairs : (here : List Text) → List Statement → List (List Text × Value)
  | _, [] => []
  | here, s :: ss => (s.pair? here).toList ++ pairs (s.header here) ss

end Statement

theorem gives_statement : Gives statement fun s => ∀ here, ∀ p ∈ s.pair? here,
    p.2.HasDistinctKeys := by
  refine gives_bind_of_forall fun element => ?_
  cases element with
  | true =>
    exact gives_bind_of_forall fun _ => gives_bind_of_forall fun _ => gives_pure nofun
  | false =>
    refine gives_bind_of_forall fun table => ?_
    cases table with
    | true =>
      exact gives_bind_of_forall fun _ => gives_bind_of_forall fun _ => gives_pure nofun
    | false =>
      refine gives_bind (gives_pair (gives_value _) blanks) fun p hp => gives_pure ?_
      rintro here _ ⟨⟩
      exact hp

theorem gives_statementsTo (most : Nat) : Gives (statementsTo most) fun ss => ∀ s ∈ ss, ∀ here,
    ∀ p ∈ s.pair? here, p.2.HasDistinctKeys := by
  induction most with
  | zero => exact gives_failure
  | succ most ih =>
    refine gives_bind_of_forall fun _ => gives_bind_of_forall fun ends => ?_
    cases ends with
    | true => exact gives_pure nofun
    | false =>
      refine gives_bind gives_statement fun first hfirst => gives_bind_of_forall fun _ => ?_
      refine gives_bind ih fun rest hrest => gives_pure ?_
      exact List.forall_mem_cons.mpr ⟨hfirst, hrest⟩

/-! ## The table of a text -/

namespace Building

variable {b b' : Building}

/-- What a statement adds to the table. -/
theorem gains_step {s : Statement} (hv : ∀ here, ∀ p ∈ s.pair? here, p.2.HasDistinctKeys)
    (h : b.step s = some b') :
    b'.path = s.header b.path ∧
      Gains (fun u path => ∃ p ∈ s.pair? b.path, Under p.1 p.2.Holds u path) b.root.toValue
        b'.root.toValue := by
  cases s with
  | pair path v =>
    obtain ⟨root, hroot, rfl⟩ := Option.map_eq_some_iff.mp h
    refine ⟨rfl, (Table.gains_within (fun _ _ => Table.gains_assign (hv [] _ rfl)) hroot).congr ?_⟩
    simp [Statement.pair?, under_under]
  | table path =>
    obtain ⟨last, -, henter⟩ := Option.bind_eq_some_iff.mp h
    obtain ⟨root, hroot, hb⟩ := Option.bind_eq_some_iff.mp henter
    cases hb
    refine ⟨rfl, (Table.gains_within (fun _ _ => Table.gains_openTable) hroot).congr ?_⟩
    simp [Statement.pair?, under_false]
  | element path =>
    obtain ⟨last, -, henter⟩ := Option.bind_eq_some_iff.mp h
    obtain ⟨root, hroot, hb⟩ := Option.bind_eq_some_iff.mp henter
    cases hb
    refine ⟨rfl, (Table.gains_within (fun _ _ => Table.gains_openElement) hroot).congr ?_⟩
    simp [Statement.pair?, under_false]

/-- What statements add to the table, one after another. -/
theorem gains_foldlM {ss : List Statement}
    (hv : ∀ s ∈ ss, ∀ here, ∀ p ∈ s.pair? here, p.2.HasDistinctKeys)
    (h : ss.foldlM step b = some b') :
    Gains (fun u path => ∃ p ∈ Statement.pairs b.path ss, Under p.1 p.2.Holds u path)
      b.root.toValue b'.root.toValue := by
  induction ss generalizing b with
  | nil =>
    cases h
    exact (Gains.refl _).congr (by simp [Statement.pairs])
  | cons s ss ih =>
    obtain ⟨next, hnext, hrest⟩ := Option.bind_eq_some_iff.mp h
    obtain ⟨hfirst, hall⟩ := List.forall_mem_cons.mp hv
    obtain ⟨hpath, hgains⟩ := gains_step hfirst hnext
    refine (hgains.trans (ih hall hrest)).congr fun u path => ?_
    simp [Statement.pairs, hpath, or_and_right, exists_or]

end Building

/-- A text that is read is a table. It holds what the values of the pairs hold, each under the keys
of its header and its own, and nothing else; and no table in it has a key twice. -/
theorem tables_hold_what_their_pairs_hold {t : Text} {v : Value} (h : parse t = some v) :
    v.HasDistinctKeys ∧ ∃ entries ss, v = .table entries ∧ statements? t = some ss ∧
      ∀ u path, v.Holds u path ↔
        ∃ p ∈ Statement.pairs [] ss, ∃ rest, path = p.1 ++ rest ∧ p.2.Holds u rest := by
  obtain ⟨ss, hss, hbuild⟩ := Option.bind_eq_some_iff.mp h
  obtain ⟨b, hb, hv⟩ := Option.bind_eq_some_iff.mp hbuild
  cases hv
  obtain ⟨⟨_, rest⟩, hread, rfl⟩ := Option.map_eq_some_iff.mp hss
  obtain ⟨hholds, hdistinct⟩ := Building.gains_foldlM (gives_statementsTo _ _ _ rest hread) hb
  refine ⟨hdistinct hasDistinctKeys_nil, _, _, rfl, hss, fun u path => ?_⟩
  exact (hholds u path).trans (or_iff_right not_holds_nil)

end Toml

end SnippetEngine
