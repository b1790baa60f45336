-- What an argument may become. The declared names that go on from the typed text come first, as many
-- as the settings allow, and the text itself joins them where it is a literal that no variable hides.
-- Then the shorter ones move to the front, and an empty completion closes the list.
import SnippetEngine.Proofs.Session.History
import SnippetEngine.Proofs.Session.Scoping

namespace SnippetEngine

open Session Text

/-! ## Stable sorting -/

section StableSort

variable {α : Type} {size : α → Nat} {items sorted : List α}

/-- The items in ascending order of their size. Items of one size stay in the order in which they
stood. -/
structure IsStableSort (size : α → Nat) (items sorted : List α) : Prop where
  ascending : sorted.Pairwise fun a b => size a ≤ size b
  sameSize : ∀ k, sorted.filter (size · == k) = items.filter (size · == k)

/-- Only the sizes of the items count. -/
theorem isStableSort_iff : IsStableSort size items sorted ↔
    (sorted.Pairwise fun a b => size a ≤ size b) ∧
      ∀ a ∈ sorted ++ items, sorted.filter (size · == size a) = items.filter (size · == size a) := by
  refine ⟨fun h => ⟨h.ascending, fun a _ => h.sameSize (size a)⟩,
    fun ⟨hascending, hsame⟩ => ⟨hascending, fun k => ?_⟩⟩
  by_cases hk : ∃ a ∈ sorted ++ items, size a = k
  · obtain ⟨a, ha, rfl⟩ := hk
    exact hsame a ha
  · have hnone : ∀ l : List α, (∀ a ∈ l, a ∈ sorted ++ items) → l.filter (size · == k) = [] :=
      fun l hl => List.filter_eq_nil_iff.mpr fun a ha hsize => hk ⟨a, hl a ha, by simpa using hsize⟩
    rw [hnone sorted fun a => List.mem_append_left items,
      hnone items fun a => List.mem_append_right sorted]

instance [DecidableEq α] (size : α → Nat) (items sorted : List α) :
    Decidable (IsStableSort size items sorted) :=
  decidable_of_iff _ isStableSort_iff.symm

theorem isStableSort_mergeSort (size : α → Nat) (items : List α) :
    IsStableSort size items (items.mergeSort fun a b => size a ≤ size b) := by
  have htrans : ∀ a b c : α, decide (size a ≤ size b) = true → decide (size b ≤ size c) = true →
      decide (size a ≤ size c) = true := by
    simp only [decide_eq_true_eq]
    exact fun a b c => Nat.le_trans
  have htotal : ∀ a b : α, (decide (size a ≤ size b) || decide (size b ≤ size a)) = true := by
    simp only [Bool.or_eq_true, decide_eq_true_eq]
    exact fun a b => Nat.le_total _ _
  refine ⟨?_, fun k => ?_⟩
  · simpa using List.pairwise_mergeSort htrans htotal items
  · -- the items of size `k` are sorted already, so they stay a part of the list
    have hsame : (items.filter (size · == k)).Pairwise fun a b => decide (size a ≤ size b) = true := by
      refine List.pairwise_of_forall_mem_list fun a ha b hb => ?_
      have hsize := (List.mem_filter.mp ha).2
      have hsize' := (List.mem_filter.mp hb).2
      simp only [beq_iff_eq] at hsize hsize'
      simp [hsize, hsize']
    have hsub := (List.sublist_mergeSort htrans htotal hsame List.filter_sublist).filter (size · == k)
    simp only [List.filter_filter, Bool.and_self] at hsub
    refine (hsub.eq_of_length ?_).symm
    exact ((List.mergeSort_perm items _).filter _).length_eq.symm

theorem IsStableSort.perm [DecidableEq α] (h : IsStableSort size items sorted) :
    sorted.Perm items := by
  refine List.perm_iff_count.mpr fun a => ?_
  have hcount : ∀ l : List α, (l.filter (size · == size a)).count a = l.count a :=
    fun l => List.count_filter (by simp)
  rw [← hcount sorted, h.sameSize, hcount items]

/-- There is one stable sort of a list. -/
theorem IsStableSort.unique {sorted' : List α} (h : IsStableSort size items sorted)
    (h' : IsStableSort size items sorted') : sorted = sorted' := by
  have hsame : ∀ k, sorted.filter (size · == k) = sorted'.filter (size · == k) :=
    fun k => (h.sameSize k).trans (h'.sameSize k).symm
  have hmem : ∀ a, a ∈ sorted ↔ a ∈ sorted' := by
    intro a
    have := congrArg (a ∈ ·) (hsame (size a))
    simpa using this
  obtain ⟨hsorted, -⟩ := h
  obtain ⟨hsorted', -⟩ := h'
  induction sorted generalizing sorted' with
  | nil => exact (List.eq_nil_iff_forall_not_mem.mpr fun a => mt (hmem a).mpr List.not_mem_nil).symm
  | cons a sorted ih =>
    rcases sorted' with _ | ⟨b, sorted'⟩
    · exact absurd ((hmem a).mp List.mem_cons_self) List.not_mem_nil
    rw [List.pairwise_cons] at hsorted hsorted'
    have hsize : size a = size b := by
      refine Nat.le_antisymm ?_ ?_
      · rcases List.mem_cons.mp ((hmem b).mpr List.mem_cons_self) with rfl | hb
        · exact Nat.le_refl _
        · exact hsorted.1 b hb
      · rcases List.mem_cons.mp ((hmem a).mp List.mem_cons_self) with rfl | ha
        · exact Nat.le_refl _
        · exact hsorted'.1 a ha
    -- the two heads are the first items of the least size
    have hfirst := hsame (size a)
    rw [List.filter_cons_of_pos (by simp), List.filter_cons_of_pos (by simp [hsize])] at hfirst
    obtain rfl := (List.cons.inj hfirst).1
    have hrest : ∀ k, sorted.filter (size · == k) = sorted'.filter (size · == k) := by
      intro k
      have hk := hsame k
      rw [List.filter_cons, List.filter_cons] at hk
      split at hk
      · exact (List.cons.inj hk).2
      · exact hk
    refine congrArg (a :: ·) (ih hrest (fun c => ?_) hsorted.2 hsorted'.2)
    have := congrArg (c ∈ ·) (hrest (size c))
    simpa using this

end StableSort

/-! ## Declarations -/

/-- Where each name stands once, what is chosen by name and text is chosen by name. -/
theorem Bindings.map_fst_filter {bs : Bindings} (h : bs.names.Nodup) (p : Text → Text → Bool) :
    (bs.filter fun b => p b.1 b.2).map Prod.fst =
      bs.names.filter fun name => (bs.value? name).any (p name) := by
  induction bs with
  | nil => rfl
  | cons b bs ih =>
    obtain ⟨name, text⟩ := b
    obtain ⟨hnew, hrest⟩ := List.nodup_cons.mp h
    have hself : value? ((name, text) :: bs) name = some text := by simp [value?]
    have hothers : (names bs).filter (fun other => (value? ((name, text) :: bs) other).any (p other)) =
        (names bs).filter fun other => (value? bs other).any (p other) := by
      refine List.filter_congr fun other hother => ?_
      have hne : name ≠ other := fun he => hnew (he ▸ hother)
      simp [value?, hne]
    change _ = (name :: names bs).filter _
    rw [List.filter_cons, List.filter_cons, hself, hothers, ← ih hrest]
    by_cases hp : p name text = true
    · simp [hp]
    · simp [hp]

namespace Operation

def declaration? : Operation → Option (Text × Text)
  | declare name type => some (name, type)
  | _ => none

theorem declared_edited (history : List Operation) (d : Document) :
    (edited history d).declared = (history.filterMap (·.declaration?)).foldl
      (fun bs p => Bindings.bind p.1 p.2 bs) d.declared := by
  induction history generalizing d with
  | nil => rfl
  | cons o os ih =>
    refine (ih (o.edit d)).trans ?_
    cases o <;> rfl

/-- What is declared in a session, is declared by its declarations one after another. -/
theorem declared_after_opening (text : Text) (config : Config) (history : List Operation) :
    (after history (opening text config)).evaluator.declared =
      Bindings.ofList (history.filterMap (·.declaration?)) := by
  rw [(touched_after history (s := opening text config) (.refl _)).declared]
  exact declared_edited history _

end Operation

/-! ## Literals -/

/-- The text, taken literally, is a value of the type. Where no type is asked for, a number or a
string will do. -/
inductive IsLiteralOf (text : Text) : (type : Text) → Prop
  | number {type : Text} (isNumber : type ∈ TypeName.numeric ∨ type = TypeName.anyNumber)
    (digits : ∀ c ∈ text, c.isDigit = true) : IsLiteralOf text type
  | string (quoted : text.head? = some '"') : IsLiteralOf text "String".toList
  | anyNumber (digits : ∀ c ∈ text, c.isDigit = true) : IsLiteralOf text []
  | anyString (quoted : text.head? = some '"') : IsLiteralOf text []
  | identifier (other : ∃ c ∈ text, c.isDigit = false) : IsLiteralOf text TypeName.newIdentifier

theorem Text.isDigits_iff {text : Text} : isDigits text = true ↔ ∀ c ∈ text, c.isDigit = true :=
  List.all_eq_true

theorem Text.startsWith_singleton_iff {c : Char} {text : Text} :
    startsWith [c] text = true ↔ text.head? = some c := by
  cases text with
  | nil => simp [startsWith, after?]
  | cons d text =>
    by_cases h : c = d
    · simp [startsWith, after?, h]
    · simp [startsWith, after?, h, Ne.symm h]

theorem TypeName.isNumber_iff {type : Text} :
    (isNumeric type || type == TypeName.anyNumber) = true ↔
      type ∈ numeric ∨ type = TypeName.anyNumber := by
  rw [Bool.or_eq_true, beq_iff_eq, isNumeric, List.contains_iff_mem]

theorem isLiteral_iff {type text : Text} :
    Document.isLiteral type text = true ↔ IsLiteralOf text type := by
  unfold Document.isLiteral
  constructor
  · intro h
    split at h
    next hnumber =>
      exact .number (TypeName.isNumber_iff.mp hnumber) (isDigits_iff.mp h)
    split at h
    next hstring =>
      obtain rfl := eq_of_beq hstring
      exact .string (startsWith_singleton_iff.mp h)
    split at h
    next hnone =>
      obtain rfl := List.isEmpty_iff.mp hnone
      rcases Bool.or_eq_true_iff.mp h with hdigits | hquoted
      · exact .anyNumber (isDigits_iff.mp hdigits)
      · exact .anyString (startsWith_singleton_iff.mp hquoted)
    split at h
    next hidentifier =>
      obtain rfl := eq_of_beq hidentifier
      refine .identifier ?_
      simpa [isDigits] using h
    next => cases h
  · intro h
    cases h with
    | number isNumber digits =>
      rw [if_pos (TypeName.isNumber_iff.mpr isNumber)]
      exact isDigits_iff.mpr digits
    | string quoted =>
      rw [if_neg (by decide), if_pos (by decide)]
      exact startsWith_singleton_iff.mpr quoted
    | anyNumber digits =>
      rw [if_neg (by decide), if_neg (by decide), if_pos (by decide), isDigits_iff.mpr digits]
      rfl
    | anyString quoted =>
      rw [if_neg (by decide), if_neg (by decide), if_pos (by decide),
        startsWith_singleton_iff.mpr quoted, Bool.or_true]
    | identifier other =>
      rw [if_neg (by decide), if_neg (by decide), if_neg (by decide), if_pos (by decide)]
      simpa [isDigits] using other

instance (text type : Text) : Decidable (IsLiteralOf text type) :=
  decidable_of_iff _ isLiteral_iff

/-! ## What may stand for a text -/

/-- A text is typed at the node, for an expression of a type. -/
def MatchTree.IsTyped (t : MatchTree) (n : NodeId) (typed type : Text) : Prop :=
  typed ≠ [] ∧ ∃ p : Parameter, t.argument? n = .ok (some ⟨some p, some typed⟩) ∧
    p.majorType = Document.expression ∧ p.minorType = type

namespace MatchTree

variable {t : MatchTree} {n : NodeId}

theorem IsTyped.unique {typed typed' type type' : Text} (h : t.IsTyped n typed type)
    (h' : t.IsTyped n typed' type') : typed = typed' ∧ type = type' := by
  obtain ⟨-, p, hp, -, rfl⟩ := h
  obtain ⟨-, q, hq, -, rfl⟩ := h'
  cases hp.symm.trans hq
  exact ⟨rfl, rfl⟩

theorem exists_argument? (h : n < t.size) : ∃ a, t.argument? n = .ok a := by
  unfold argument? MatchTree.node
  rcases hn : t.node? n with _ | ⟨p, m, k⟩
  · exact absurd h (Nat.not_lt.mpr (node?_eq_none.mp hn))
  · cases k
    · exact ⟨some _, rfl⟩
    · exact ⟨none, rfl⟩

end MatchTree

namespace Document

variable {d : Document} {t : MatchTree} {n : NodeId} {typed type : Text}

/-- The names that go on from the typed text and have a type that fits. -/
theorem namesFor_eq (h : d.declared.names.Nodup) (type typed : Text) :
    d.namesFor type typed = (d.declared.names.filter fun name =>
      typed <+: name ∧ ∃ ty ∈ d.declaredType? name, d.compatibility.isCompatible type ty = true).take
        d.config.maxArgumentCompletions := by
  have hchosen := Bindings.map_fst_filter h fun name declaredType =>
    startsWith typed name && d.compatibility.isCompatible type declaredType
  unfold namesFor
  refine congrArg (List.take _) (hchosen.trans (List.filter_congr fun name _ => ?_))
  rw [Bool.eq_iff_iff, decide_eq_true_iff, ← startsWith_iff]
  change Option.any _ (d.declaredType? name) = true ↔ _
  rcases d.declaredType? name with _ | ty
  · simp
  · simp

theorem mem_namesFor {name : Text} (h : name ∈ d.namesFor type typed) :
    name ∈ d.declared.names ∧ typed <+: name := by
  obtain ⟨⟨_, ty⟩, hentry, rfl⟩ := List.mem_map.mp (List.mem_of_mem_take h)
  obtain ⟨hmem, hchosen⟩ := List.mem_filter.mp hentry
  exact ⟨List.mem_map_of_mem hmem, startsWith_iff.mp (Bool.and_eq_true_iff.mp hchosen).1⟩

theorem literalFor_eq (d : Document) (type typed : Text) :
    d.literalFor type typed =
      if typed ∉ d.declared.names ∧ typed.getLast? ≠ some '.' ∧ IsLiteralOf typed type then [typed]
      else [] := by
  have hbinds : d.declared.binds typed = true ↔ typed ∈ d.declared.names := by
    simp [Bindings.binds, Bindings.names]
  have hdot : endsWith ['.'] typed = true ↔ typed.getLast? = some '.' := by
    rw [endsWith, before?_singleton]
    split <;> simp [*]
  unfold literalFor
  congr 1
  rw [Bool.and_eq_true, Bool.and_eq_true, Bool.not_eq_true', Bool.not_eq_true', isLiteral_iff,
    ← Bool.not_eq_true, ← Bool.not_eq_true, hbinds, hdot, and_assoc]

theorem ne_nil_of_mem_candidates (h : typed ≠ []) {c : Text} (hc : c ∈ d.candidates type typed) :
    c ≠ [] := by
  rintro rfl
  rcases List.mem_append.mp (List.mem_mergeSort.mp hc) with hname | hliteral
  · exact h (List.prefix_nil.mp (mem_namesFor hname).2)
  · rw [literalFor_eq] at hliteral
    split at hliteral
    · exact h (List.mem_singleton.mp hliteral).symm
    · cases hliteral

theorem isStableSort_candidates (h : d.declared.names.Nodup) (type typed : Text) :
    let fitting := d.declared.names.filter fun name =>
      typed <+: name ∧ ∃ ty ∈ d.declaredType? name, d.compatibility.isCompatible type ty = true
    let literal := if typed ∉ d.declared.names ∧ typed.getLast? ≠ some '.' ∧ IsLiteralOf typed type
      then [typed] else []
    IsStableSort Text.byteSize (fitting.take d.config.maxArgumentCompletions ++ literal)
      (d.candidates type typed) := by
  intro fitting literal
  have hitems : d.namesFor type typed ++ d.literalFor type typed =
      fitting.take d.config.maxArgumentCompletions ++ literal := by
    rw [namesFor_eq h, literalFor_eq]
  rw [← hitems]
  exact isStableSort_mergeSort Text.byteSize _

/-- No candidate stands twice. -/
theorem nodup_candidates (h : d.declared.names.Nodup) (type typed : Text) :
    (d.candidates type typed).Nodup := by
  refine (isStableSort_candidates h type typed).perm.nodup_iff.mpr ?_
  rw [List.nodup_append]
  refine ⟨(h.filter _).sublist (List.take_sublist _ _), ?_, ?_⟩
  · split
    · exact List.nodup_singleton _
    · exact List.nodup_nil
  · rintro name hname literal hliteral rfl
    have hdeclared := (List.mem_filter.mp (List.mem_of_mem_take hname)).1
    split at hliteral
    next hnew =>
      rw [List.mem_singleton.mp hliteral] at hdeclared
      exact hnew.1 hdeclared
    next => cases hliteral

theorem completionsOf_eq {p : Parameter} (hne : typed ≠ []) (hmajor : p.majorType = expression) :
    d.completionsOf ⟨some p, some typed⟩ = d.candidates p.minorType typed ++ [[]] := by
  have hfilter : (d.candidates p.minorType typed).filter (!·.isEmpty) =
      d.candidates p.minorType typed := by
    refine List.filter_eq_self.mpr fun c hc => ?_
    simpa using ne_nil_of_mem_candidates hne hc
  unfold completionsOf
  simp only
  rw [if_neg (by simp [hne, hmajor]), hfilter]

/-- At a node without a typed text there is nothing to complete. -/
theorem completionsOf_of_not_isTyped {a : Argument} (ha : t.argument? n = .ok (some a))
    (h : ¬ ∃ typed type, t.IsTyped n typed type) : d.completionsOf a = [[]] := by
  rcases a with ⟨_ | p, _ | typed⟩
  · rfl
  · rfl
  · rfl
  · by_cases hcase : typed.isEmpty = true ∨ (p.majorType != expression) = true
    · exact if_pos (Bool.or_eq_true_iff.mpr hcase)
    · rw [not_or] at hcase
      refine absurd ⟨typed, p.minorType, ?_, p, ha, ?_, rfl⟩ h
      · simpa using hcase.1
      · simpa using hcase.2

/-- The completions of a node are the candidates for what is typed there, and an empty text. -/
theorem exists_completions (hn : n < t.size) (h : d.declared.names.Nodup) :
    ∃ others, (t.argument? n).map (fun a => a.elim [[]] d.completionsOf) = .ok (others ++ [[]]) ∧
      others.Nodup ∧ (∀ c ∈ others, c ≠ []) ∧
      ((¬ ∃ typed type, t.IsTyped n typed type) → others = []) ∧
      ∀ typed type, t.IsTyped n typed type → others = d.candidates type typed := by
  obtain ⟨a, ha⟩ := MatchTree.exists_argument? hn
  by_cases htyped : ∃ typed type, t.IsTyped n typed type
  · obtain ⟨typed, type, htyped⟩ := htyped
    refine ⟨d.candidates type typed, ?_, nodup_candidates h type typed,
      fun c => ne_nil_of_mem_candidates htyped.1, fun hnot => absurd ⟨typed, type, htyped⟩ hnot,
      fun typed' type' htyped' => ?_⟩
    · obtain ⟨hne, p, hp, hmajor, rfl⟩ := htyped
      rw [hp, ← completionsOf_eq hne hmajor]
      rfl
    · obtain ⟨rfl, rfl⟩ := htyped.unique htyped'
      rfl
  · refine ⟨[], ?_, List.nodup_nil, by simp, fun _ => rfl,
      fun typed type h => absurd ⟨typed, type, h⟩ htyped⟩
    rw [ha]
    rcases a with _ | a
    · rfl
    · exact congrArg Except.ok (completionsOf_of_not_isTyped ha htyped)

end Document

/-- What a session answers, and that it stays as it was. -/
theorem Synthesizer.run_completions (t : MatchTree) (n : NodeId) (s : Synthesizer Document) :
    (Environment.completions t n : Session (Synthesizer Document) (List Text)).run.run s =
      ((t.argument? n).map fun a => a.elim [[]] s.evaluator.completionsOf, s) := by
  change (onEvaluator (Document.completions t n)).run.run s = _
  rw [run_onEvaluator, Document.run_completions]

/-! ## The law -/

/-- In a session on a document, whatever was done in it. The completions of a node are texts that are
not empty and not alike, and an empty one behind them, and asking for them changes nothing. There
are no such texts unless a text is typed for an expression. If one is, they are the first of the
declared names that go on from it and fit, where a name that is declared again keeps its place, and
the typed text itself if it is a literal, is not declared and does not end with a dot. The shorter
ones come first, and otherwise they keep this order. -/
theorem completions_are_names_and_the_literal (text : Text) (config : Config)
    (history : List Operation) (t : MatchTree) {n : NodeId} (hn : n < t.size) :
    let s := Operation.after history (Operation.opening text config)
    let x : Session (Synthesizer Document) (List Text) := Environment.completions t n
    let pairs := history.filterMap (·.declaration?)
    let names := (pairs.map Prod.fst).eraseDups
    ∃ others, outcome x s = .ok (others ++ [[]]) ∧ final x s = s ∧
      others.Nodup ∧ (∀ c ∈ others, c ≠ []) ∧
      ((¬ ∃ typed type, t.IsTyped n typed type) → others = []) ∧
      ∀ typed type, t.IsTyped n typed type →
        let fitting := names.filter fun name => typed <+: name ∧
          ∃ ty ∈ Bindings.value? pairs.reverse name, config.compatibility.isCompatible type ty = true
        let literal := if typed ∉ names ∧ typed.getLast? ≠ some '.' ∧ IsLiteralOf typed type
          then [typed] else []
        IsStableSort Text.byteSize (fitting.take config.maxArgumentCompletions ++ literal)
          others := by
  intro s x pairs names
  have hsound : s.evaluator.IsSound text config :=
    Operation.after_sound history (Document.isSound_ofText text config)
  have hdeclared : s.evaluator.declared = Bindings.ofList pairs :=
    Operation.declared_after_opening text config history
  have hnames : s.evaluator.declared.names = names := by
    rw [hdeclared, Bindings.names_ofList]
  have htype : ∀ name, s.evaluator.declaredType? name = Bindings.value? pairs.reverse name := by
    intro name
    rw [Document.declaredType?, hdeclared, Bindings.value?_ofList]
  have hrun : x.run.run s = _ := Synthesizer.run_completions t n s
  obtain ⟨others, hanswer, hnodup, hne, hnone, hsome⟩ :=
    Document.exists_completions hn hsound.declared
  refine ⟨others, (congrArg Prod.fst hrun).trans hanswer, congrArg Prod.snd hrun, hnodup, hne,
    hnone, fun typed type htyped => ?_⟩
  have hsorted := Document.isStableSort_candidates hsound.declared type typed
  rw [hnames] at hsorted
  simp only [htype, Document.compatibility, hsound.config] at hsorted
  rw [hsome typed type htyped]
  exact hsorted

/-- A tree with a text that is typed for a new identifier. -/
def typedIdentifier (typed : Text) : MatchTree :=
  MatchTree.build [
    .addEffectWithParameters ⟨0, { id := ['e'], parameters :=
      [{ name := ['x'], majorType := "expr".toList, minorType := "$ident".toList }] }⟩ [],
    .setArgument 0 (some typed)]

/-- The shorter names come first, and those of one length in the order of the declarations. `foobar`
fits since it was declared once more. -/
theorem longer_names_stand_behind_the_typed_text :
    let config : Config := { compatible := [("$ident".toList, ["int".toList])] }
    let history : List Operation := [("foobar", "String"), ("fox", "int"), ("fort", "long"),
      ("foo", "int"), ("foobar", "int")].map fun (name, type) => .declare name.toList type.toList
    let t := typedIdentifier "fo".toList
    let s := Operation.after history (Operation.opening [] config)
    let x : Session (Synthesizer Document) (List Text) := Environment.completions t 0
    0 < t.size ∧ t.IsTyped 0 "fo".toList "$ident".toList ∧ final x s = s ∧
      outcome x s = .ok (["fo", "fox", "foo", "foobar", ""].map String.toList) := by
  intro config history t s x
  have hsize : 0 < t.size := by decide +kernel
  have htyped : t.IsTyped 0 "fo".toList "$ident".toList := by
    refine ⟨by decide, ⟨['x'], "expr".toList, "$ident".toList, none⟩, by decide +kernel, rfl, rfl⟩
  obtain ⟨others, hanswer, hstays, -, -, -, hsorted⟩ :=
    completions_are_names_and_the_literal [] config history t hsize
  have hothers := hsorted _ _ htyped
  have hsort : IsStableSort Text.byteSize (["foobar", "fox", "foo", "fo"].map String.toList)
      (["fo", "fox", "foo", "foobar"].map String.toList) := by decide +kernel
  refine ⟨hsize, htyped, hstays, ?_⟩
  rw [hanswer, hothers.unique hsort]
  rfl

end SnippetEngine
