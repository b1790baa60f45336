-- Types by their construction: plain names, arrays and generic types. The type of the elements is
-- read off the characters of a name, and yet it is the type that the name was made from. Only
-- several arguments of a generic type are taken together, and what comes out names no type: every
-- comma of a type stands between brackets, so no type is another one that goes on with a comma.
import Mathlib.Logic.Function.Basic
import SnippetEngine.Proofs.Text.Cuts
import SnippetEngine.TypeName

namespace SnippetEngine.TypeName

open Text

/-- The characters that put types together. -/
def marks : Text := ['<', '>', ',', '[', ']']

/-- A name with its package, of a type or of a generic type. -/
@[ext]
structure Name where
  text : Text
  ne_nil : text ≠ []
  plain : ∀ c ∈ text, isBlank c = false ∧ c ∉ marks

theorem Name.not_mem (name : Name) {c : Char} (hc : c ∈ marks) : c ∉ name.text :=
  fun h => (name.plain c h).2 hc

/-- A type. A generic type has at least one argument. -/
inductive Expression
  | named (name : Name)
  | array (element : Expression)
  | generic (name : Name) (first : Expression) (more : List Expression)

namespace Expression

/-- The types that a generic type is applied to. -/
def arguments : Expression → List Expression
  | generic _ first more => first :: more
  | _ => []

/-- The type of the elements of an array, and the argument of a generic type that has only one. -/
def inner? : Expression → Option Expression
  | named _ => none
  | array element => some element
  | generic _ argument [] => some argument
  | generic _ _ (_ :: _) => none

mutual

/-- How the type is written. -/
def text : Expression → Text
  | named name => name.text
  | array element => element.text ++ ['[', ']']
  | generic name first more =>
    name.text ++ '<' :: ([','].intercalate (first.text :: texts more) ++ ['>'])

/-- How each of the types is written. -/
def texts : List Expression → List Text
  | [] => []
  | e :: es => e.text :: texts es

end

theorem texts_eq_map (es : List Expression) : texts es = es.map text := by
  induction es with
  | nil => rfl
  | cons e es ih => rw [texts, ih, List.map_cons]

/-- How arguments are written, with commas between them. -/
def joined (es : List Expression) : Text := [','].intercalate (es.map text)

theorem joined_singleton (e : Expression) : joined [e] = e.text := by simp [joined]

theorem joined_cons_cons (e d : Expression) (es : List Expression) :
    joined (e :: d :: es) = e.text ++ ',' :: joined (d :: es) := by simp [joined]

theorem text_generic (name : Name) (first : Expression) (more : List Expression) :
    (generic name first more).text = name.text ++ '<' :: (joined (first :: more) ++ ['>']) := by
  rw [text, texts_eq_map, joined, List.map_cons]

/-- Types along their construction. What holds for the arguments is given for all of them. -/
@[elab_as_elim, induction_eliminator]
theorem construction_induction {motive : Expression → Prop} (named : ∀ name, motive (named name))
    (array : ∀ element, motive element → motive (array element))
    (generic : ∀ name first more, (∀ e ∈ first :: more, motive e) →
      motive (generic name first more)) : ∀ e, motive e
  | .named name => named name
  | .array element => array element (construction_induction named array generic element)
  | .generic name first more => by
    refine generic name first more (List.forall_mem_cons.mpr ⟨?_, fun e he => ?_⟩)
    · exact construction_induction named array generic first
    · exact construction_induction named array generic e

variable {e d first : Expression} {es more : List Expression} {s t : Text}

/-- What holds for arguments and for a comma, and for two texts together, holds for all arguments
with commas between them. -/
theorem joined_induction {motive : Text → Prop} (hne : es ≠ [])
    (argument : ∀ e ∈ es, motive e.text) (comma : motive [','])
    (append : ∀ {s t}, motive s → motive t → motive (s ++ t)) : motive (joined es) := by
  induction es with
  | nil => exact absurd rfl hne
  | cons e es ih =>
    rw [List.forall_mem_cons] at argument
    cases es with
    | nil =>
      rw [joined_singleton]
      exact argument.1
    | cons d es =>
      rw [joined_cons_cons]
      have hrest : motive ([','] ++ joined (d :: es)) :=
        append comma (ih (List.cons_ne_nil d es) argument.2)
      exact append argument.1 hrest

/-! ## Characters of types -/

theorem not_isBlank_of_mem_joined (h : ∀ e ∈ first :: more, ∀ c ∈ e.text, isBlank c = false) :
    ∀ c ∈ joined (first :: more), isBlank c = false :=
  joined_induction (motive := fun t => ∀ c ∈ t, isBlank c = false) (List.cons_ne_nil first more) h
    (List.forall_mem_singleton.mpr (by decide)) fun hs ht => List.forall_mem_append.mpr ⟨hs, ht⟩

theorem not_isBlank_of_mem_text (e : Expression) : ∀ c ∈ e.text, isBlank c = false := by
  induction e with
  | named name => exact fun c hc => (name.plain c hc).1
  | array element ih => exact List.forall_mem_append.mpr ⟨ih, by simp [isBlank]⟩
  | generic name first more ih =>
    rw [text_generic, List.forall_mem_append, List.forall_mem_cons, List.forall_mem_append,
      List.forall_mem_singleton]
    exact ⟨fun c hc => (name.plain c hc).1, by decide, not_isBlank_of_mem_joined ih, by decide⟩

theorem joined_ne_nil (first : Expression) (more : List Expression) :
    joined (first :: more) ≠ [] := by
  have hne : first.text ≠ [] := by
    cases first with
    | named name => exact name.ne_nil
    | array element => simp [text]
    | generic name first more => simp [text]
  cases more with
  | nil => rwa [joined_singleton]
  | cons e es => simp [joined_cons_cons]

theorem trim_joined (first : Expression) (more : List Expression) :
    trim (joined (first :: more)) = joined (first :: more) := by
  have hblank : ∀ c ∈ joined (first :: more), isBlank c = false :=
    not_isBlank_of_mem_joined fun e _ => not_isBlank_of_mem_text e
  exact trim_eq_self
    ⟨fun c hc => hblank c (List.mem_of_mem_head? hc), fun c hc => hblank c (List.mem_of_getLast? hc)⟩

/-! ## Brackets -/

/-- How many of its `<` the text leaves open. -/
def depth (t : Text) : Int := t.count '<' - t.count '>'

theorem depth_append (s t : Text) : depth (s ++ t) = depth s + depth t := by
  simp only [depth, List.count_append]
  omega

theorem depth_open (t : Text) : depth ('<' :: t) = 1 + depth t := depth_append ['<'] t

/-- No bracket is closed that is not open, and none is left open. -/
structure IsBalanced (t : Text) : Prop where
  depth_eq : depth t = 0
  nonneg : ∀ {u v}, t = u ++ v → 0 ≤ depth u

/-- A balanced text in which every comma stands between brackets. -/
structure IsEnclosed (t : Text) : Prop extends IsBalanced t where
  comma : ∀ {u v}, t = u ++ ',' :: v → 0 < depth u

theorem IsBalanced.of_not_mem (hopen : '<' ∉ t) (hclose : '>' ∉ t) : IsBalanced t where
  depth_eq := by simp [depth, List.count_eq_zero.mpr hopen, List.count_eq_zero.mpr hclose]
  nonneg := by
    rintro u v rfl
    rw [List.mem_append, not_or] at hclose
    simp [depth, List.count_eq_zero.mpr hclose.1]

theorem IsEnclosed.of_not_mem (hopen : '<' ∉ t) (hclose : '>' ∉ t) (hcomma : ',' ∉ t) :
    IsEnclosed t where
  toIsBalanced := .of_not_mem hopen hclose
  comma := by
    rintro u v rfl
    exact absurd (by simp) hcomma

theorem IsBalanced.append (hs : IsBalanced s) (ht : IsBalanced t) : IsBalanced (s ++ t) where
  depth_eq := by rw [depth_append, hs.depth_eq, ht.depth_eq, Int.add_zero]
  nonneg := by
    intro u v h
    rcases List.append_eq_append_iff.mp h with ⟨w, rfl, hw⟩ | ⟨w, hu, -⟩
    · rw [depth_append, hs.depth_eq, Int.zero_add]
      exact ht.nonneg hw
    · exact hs.nonneg hu

theorem IsEnclosed.append (hs : IsEnclosed s) (ht : IsEnclosed t) : IsEnclosed (s ++ t) where
  toIsBalanced := hs.toIsBalanced.append ht.toIsBalanced
  comma := by
    intro u v h
    rcases List.append_eq_append_iff.mp h with ⟨w, rfl, hw⟩ | ⟨w, hu, hw⟩
    · rw [depth_append, hs.depth_eq, Int.zero_add]
      exact ht.comma hw
    · rcases w with _ | ⟨c, w⟩
      · have hzero : 0 < depth [] := ht.comma hw.symm
        exact absurd hzero (by decide)
      · obtain ⟨rfl, -⟩ := List.cons.inj hw
        exact hs.comma hu

theorem IsBalanced.enclosed (h : IsBalanced t) : IsEnclosed ('<' :: (t ++ ['>'])) where
  depth_eq := by
    rw [depth_open, depth_append, h.depth_eq]
    rfl
  nonneg := by
    intro u v hcut
    rcases u with _ | ⟨c, u⟩
    · exact Int.le_refl 0
    obtain ⟨rfl, hrest⟩ := List.cons.inj hcut
    rw [depth_open]
    rcases List.append_eq_append_iff.mp hrest with ⟨w, rfl, hw⟩ | ⟨w, hu, -⟩
    · rw [depth_append, h.depth_eq]
      rcases List.singleton_eq_append_iff.mp hw with ⟨rfl, -⟩ | ⟨rfl, -⟩
      · decide
      · decide
    · have := h.nonneg hu
      omega
  comma := by
    intro u v hcut
    rcases u with _ | ⟨c, u⟩
    · cases hcut
    obtain ⟨rfl, hrest⟩ := List.cons.inj hcut
    rw [depth_open]
    rcases List.append_eq_append_iff.mp hrest with ⟨w, -, hw⟩ | ⟨w, hu, -⟩
    · simp [List.singleton_eq_append_iff] at hw
    · have := h.nonneg hu
      omega

theorem isEnclosed_text (e : Expression) : IsEnclosed e.text := by
  have hname : ∀ name : Name, IsEnclosed name.text := fun name =>
    .of_not_mem (name.not_mem (by decide)) (name.not_mem (by decide)) (name.not_mem (by decide))
  induction e with
  | named name => exact hname name
  | array element ih => exact ih.append (.of_not_mem (by decide) (by decide) (by decide))
  | generic name first more ih =>
    have hjoined : IsBalanced (joined (first :: more)) :=
      joined_induction (List.cons_ne_nil first more) (fun e he => (ih e he).toIsBalanced)
        (.of_not_mem (by decide) (by decide)) .append
    rw [text_generic]
    exact (hname name).append hjoined.enclosed

/-- No type is another one that goes on with a comma. -/
theorem text_ne_append_comma (e d : Expression) (t : Text) : e.text ≠ d.text ++ ',' :: t := by
  intro h
  have hpos := e.isEnclosed_text.comma h
  rw [d.isEnclosed_text.depth_eq] at hpos
  exact absurd hpos (by decide)

/-- Of two types in front of a comma, the longer one would go on with the comma. -/
theorem text_eq_of_append_comma (h : e.text ++ ',' :: s = d.text ++ ',' :: t) :
    e.text = d.text := by
  rcases List.append_eq_append_iff.mp h with ⟨w, hw, hrest⟩ | ⟨w, hw, hrest⟩
  · rcases w with _ | ⟨c, w⟩
    · simpa using hw.symm
    · obtain ⟨rfl, -⟩ := List.cons.inj hrest
      exact absurd hw (text_ne_append_comma d e w)
  · rcases w with _ | ⟨c, w⟩
    · simpa using hw
    · obtain ⟨rfl, -⟩ := List.cons.inj hrest
      exact absurd hw (text_ne_append_comma e d w)

/-! ## One way to write each type -/

/-- Arguments can be told apart if each of them can. -/
theorem eq_of_joined_eq (hes : ∀ e ∈ first :: more, ∀ d, e.text = d.text → e = d)
    {first' : Expression} {more' : List Expression}
    (h : joined (first :: more) = joined (first' :: more')) :
    first :: more = first' :: more' := by
  induction more generalizing first first' more' with
  | nil =>
    rw [joined_singleton] at h
    cases more' with
    | nil =>
      rw [joined_singleton] at h
      rw [hes first List.mem_cons_self first' h]
    | cons d more' =>
      rw [joined_cons_cons] at h
      exact absurd h (text_ne_append_comma first first' _)
  | cons e more ih =>
    rw [joined_cons_cons] at h
    cases more' with
    | nil =>
      rw [joined_singleton] at h
      exact absurd h.symm (text_ne_append_comma first' first _)
    | cons d more' =>
      rw [joined_cons_cons] at h
      rw [List.forall_mem_cons] at hes
      have hfirst := text_eq_of_append_comma h
      rw [hfirst, List.append_cancel_left_eq, List.cons.injEq] at h
      rw [hes.1 first' hfirst, ih hes.2 h.2]

theorem getLast?_text_generic (name : Name) (first : Expression) (more : List Expression) :
    (generic name first more).text.getLast? = some '>' := by
  rw [text_generic, ← List.cons_append, ← List.append_assoc, List.getLast?_concat]

/-- The character at the end that tells what the type is. -/
def ending : Expression → Option Char
  | named _ => none
  | array _ => some ']'
  | generic .. => some '>'

theorem ending_eq (e : Expression) : e.ending = e.text.getLast?.filter (marks.contains ·) := by
  cases e with
  | named name =>
    refine (Option.filter_eq_none_iff.mpr fun c hc => ?_).symm
    simpa using fun hmark => name.not_mem hmark (List.mem_of_getLast? hc)
  | array element =>
    have hlast : (array element).text.getLast? = some ']' := by simp [text]
    rw [hlast]
    rfl
  | generic name first more =>
    rw [getLast?_text_generic]
    rfl

theorem ending_congr (h : e.text = d.text) : e.ending = d.ending := by
  rw [ending_eq, ending_eq, h]

theorem text_injective : Function.Injective text := by
  intro e d h
  induction e generalizing d with
  | named name =>
    cases d with
    | named name' => exact congrArg named (Name.ext h)
    | array element => cases ending_congr h
    | generic name' first more => cases ending_congr h
  | array element ih =>
    cases d with
    | named name => cases ending_congr h
    | array element' => exact congrArg array (ih (List.append_cancel_right h))
    | generic name first more => cases ending_congr h
  | generic name first more ih =>
    cases d with
    | named name' => cases ending_congr h
    | array element => cases ending_congr h
    | generic name' first' more' =>
      -- the first `<` ends the name
      have hcut := congrArg (cutAtChar? '<') h
      rw [text_generic, text_generic, cutAtChar?_append (name.not_mem (by decide)),
        cutAtChar?_append (name'.not_mem (by decide))] at hcut
      obtain ⟨hname, hrest⟩ := Prod.mk.inj (Option.some.inj hcut)
      have harguments := eq_of_joined_eq (fun e he _ h => ih e he h) (List.append_cancel_right hrest)
      obtain ⟨rfl, rfl⟩ := List.cons.inj harguments
      rw [Name.ext hname]

theorem text_inj : e.text = d.text ↔ e = d := text_injective.eq_iff

end Expression

/-! ## Elements -/

open Expression

theorem before?_brackets_eq_none (h : t.getLast? ≠ some ']') : before? ['[', ']'] t = none := by
  rw [Option.eq_none_iff_forall_ne_some]
  intro front hfront
  rw [before?_eq_some.mp hfront] at h
  simp at h

theorem element?_named (name : Name) : element? (named name).text = none := by
  have hbrackets : before? ['[', ']'] name.text = none :=
    before?_brackets_eq_none fun h => name.not_mem (by decide) (List.mem_of_getLast? h)
  unfold element? text
  rw [hbrackets, cutAtChar?_eq_none (name.not_mem (by decide))]
  rfl

theorem element?_array (e : Expression) : element? (array e).text = some e.text := by
  have hbrackets : before? ['[', ']'] (array e).text = some e.text := before?_eq_some.mpr rfl
  have htrim := trim_joined e []
  rw [joined_singleton] at htrim
  unfold element?
  rw [hbrackets]
  exact congrArg some htrim

/-- What stands between the outermost brackets counts as one argument. -/
theorem element?_generic (name : Name) (first : Expression) (more : List Expression) :
    element? (generic name first more).text = some (joined (first :: more)) := by
  have hbrackets : before? ['[', ']'] (generic name first more).text = none :=
    before?_brackets_eq_none (by simp [getLast?_text_generic])
  have hclose : before? ['>'] (joined (first :: more) ++ ['>']) = some (joined (first :: more)) :=
    before?_eq_some.mpr rfl
  unfold element?
  rw [hbrackets, text_generic]
  simp [cutAtChar?_append (name.not_mem (show '<' ∈ marks by decide)), hclose, trim_joined,
    joined_ne_nil]

/-- Brackets inside an argument belong to it. -/
example : element? "Set<List<int[]>[]>".toList = some "List<int[]>[]".toList := by decide

/-- The type of the elements undoes the construction of a type, however deeply types are nested,
unless a generic type has several arguments. Those are taken together with their commas, and this
names no type. -/
theorem elements_are_what_the_brackets_hold (t : Expression) :
    element? t.text = (if t.arguments.length < 2 then t.inner?.map text
      else some ([','].intercalate (t.arguments.map text))) ∧
    (element? t.text = t.inner?.map text ↔ t.arguments.length < 2) ∧
    ∀ e, element? t.text = some e.text ↔ t.inner? = some e := by
  cases t with
  | named name => simp [element?_named, inner?, arguments]
  | array element => simp [element?_array, inner?, arguments, text_inj]
  | generic name first more =>
    rw [element?_generic]
    cases more with
    | nil => simp [joined_singleton, inner?, arguments, text_inj]
    | cons second more =>
      have hmany : ¬ (generic name first (second :: more)).arguments.length < 2 := by
        simp [arguments]
      have hnone : (generic name first (second :: more)).inner? = none := rfl
      rw [if_neg hmany, hnone, iff_false_right hmany]
      refine ⟨rfl, by simp, fun e => iff_of_false (fun h => ?_) (by simp)⟩
      rw [Option.some.injEq, joined_cons_cons] at h
      exact text_ne_append_comma e first _ h.symm

/-- A map has two arguments, and together they are taken for the type of its elements. -/
theorem two_arguments_are_taken_for_the_element :
    ∃ map key value : Name,
      let pair := generic map (named key) [named value]
      pair.text = "Map<K,V>".toList ∧ element? pair.text ≠ none ∧
        element? pair.text = some "K,V".toList :=
  ⟨⟨"Map".toList, by decide, by simp [isBlank, marks]⟩,
    ⟨"K".toList, by decide, by simp [isBlank, marks]⟩,
    ⟨"V".toList, by decide, by simp [isBlank, marks]⟩, by decide⟩

end SnippetEngine.TypeName
