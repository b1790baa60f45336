-- The grammar of formulas. A body is read exactly if it is written as the grammar says. Any other
-- body has flaws, and the first of them, in a fixed order, is what it is blamed for. A template is
-- compiled unless one of its bodies has a flaw, and then the first such body is the one reported.
import SnippetEngine.Proofs.Template.Regions

namespace SnippetEngine

open Text

namespace Formula

/-! ## The grammar -/

/-- The parts of a body as they are written, with the blanks around them. -/
structure Parts where
  capture : Option Text
  name : Text
  arguments : Option Text

namespace Parts

/-- The parts one after another: `[capture ':'] name ['(' arguments ')']`. -/
def source (p : Parts) : Text :=
  p.capture.elim [] (· ++ [':']) ++ (p.name ++ p.arguments.elim [] fun a => '(' :: (a ++ [')']))

structure AreWellFormed (p : Parts) : Prop where
  capture : ∀ v ∈ p.capture, isIdentifier (trim v) = true
  name : isIdentifier (trim p.name) = true
  arguments : ∀ a ∈ p.arguments, '(' ∉ a ∧ ')' ∉ a

/-- The names stand for themselves without the blanks around them. The arguments are the pieces
between the commas, blanks included, and empty parentheses hold none. -/
def formula (p : Parts) : Formula where
  name := trim p.name
  arguments := p.arguments.elim [] fun a => if a = [] then [] else List.splitOn ',' a
  capture := p.capture.map trim

end Parts

/-- The body, blanks around it ignored, is written as the grammar says, and stands for `f`. -/
def IsWrittenIn (f : Formula) (body : Text) : Prop :=
  ∃ p : Parts, trim body = p.source ∧ p.AreWellFormed ∧ p.formula = f

/-! ## Bodies cut at their marks -/

/-- A body, well formed or not, cut at the marks that count. -/
structure Cut where
  /-- What stands in front of the first colon, if that comes before any parenthesis. -/
  capture : Option Text
  /-- What stands from there up to the first opening parenthesis. -/
  name : Text
  /-- What stands behind the first opening parenthesis. -/
  tail : Option Text

namespace Cut

def ofBody (body : Text) : Cut :=
  let head := body.takeWhile (· != '(')
  { capture := if ':' ∈ head then some (head.takeWhile (· != ':')) else none
    name := if ':' ∈ head then (head.dropWhile (· != ':')).tail else head
    tail := if '(' ∈ body then some (body.dropWhile (· != '(')).tail else none }

/-- The cut without its capture. -/
def call (k : Cut) : Text := k.name ++ k.tail.elim [] ('(' :: ·)

def source (k : Cut) : Text := k.capture.elim [] (· ++ [':']) ++ k.call

/-- What the parenthesis encloses, if one closes at the very end. -/
def enclosed? (k : Cut) : Option Text :=
  (k.tail.filter fun t => t.getLast? = some ')').map List.dropLast

def formula (k : Cut) : Formula where
  name := trim k.name
  arguments := k.enclosed?.elim [] fun a => if a = [] then [] else List.splitOn ',' a
  capture := k.capture.map trim

/-- The parts do not hold the marks that they are cut at. -/
structure IsAtMarks (k : Cut) : Prop where
  capture : ∀ v ∈ k.capture, ':' ∉ v ∧ '(' ∉ v
  name : '(' ∉ k.name
  colon : k.capture = none → ':' ∉ k.name

theorem source_ofBody (body : Text) : (ofBody body).source = body := by
  have hhead : (ofBody body).capture.elim [] (· ++ [':']) ++ (ofBody body).name =
      body.takeWhile (· != '(') := by
    simp only [ofBody]
    split
    next hcolon => simpa using takeWhile_append_tail_dropWhile hcolon
    next => rfl
  rw [source, call, ← List.append_assoc, hhead]
  simp only [ofBody]
  split
  next hopen => exact takeWhile_append_tail_dropWhile hopen
  next hopen => simpa using takeWhile_of_not_mem hopen

theorem isAtMarks_ofBody (body : Text) : (ofBody body).IsAtMarks := by
  have hopen : '(' ∉ body.takeWhile (· != '(') := not_mem_takeWhile
  refine ⟨fun v hv => ?_, ?_, fun hnone => ?_⟩
  · simp only [ofBody] at hv
    split at hv
    next =>
      cases hv
      exact ⟨not_mem_takeWhile, fun hmem => hopen ((List.takeWhile_sublist _).subset hmem)⟩
    next => cases hv
  · simp only [ofBody]
    split
    next => exact fun hmem => hopen ((List.dropWhile_sublist _).subset (List.mem_of_mem_tail hmem))
    next => exact hopen
  · simp only [ofBody] at hnone ⊢
    split at hnone
    next => cases hnone
    next hcolon => rwa [if_neg hcolon]

end Cut

/-! ## Flaws -/

/-- What can be wrong with a body. -/
inductive Flaw
  | blank
  /-- What stands in front of the colon names no variable. -/
  | badCapture
  /-- The arguments are closed, and more follows. -/
  | textBehind
  | unclosed
  /-- Another parenthesis is opened in the arguments. -/
  | opensAgain
  /-- A parenthesis is closed in the arguments. -/
  | closesBefore
  | badName
  deriving DecidableEq

namespace Flaw

/-- The flaws of what stands behind the first parenthesis. -/
def ofTail : List Flaw := [textBehind, unclosed, opensAgain, closesBefore]

/-- The flaws in the order in which a body is blamed for them. -/
def order : List Flaw := blank :: badCapture :: (ofTail ++ [badName])

def fault : Flaw → FormulaFault
  | blank => .empty
  | badCapture => .invalidVariableName
  | textBehind => .trailingText
  | unclosed => .unclosedArguments
  | opensAgain => .nestedParentheses
  | closesBefore => .trailingText
  | badName => .invalidName

/-- The flaw is one of the body that is cut so. -/
def spoils (k : Cut) : Flaw → Bool
  | blank => k.source.isEmpty
  | badCapture => k.capture.any fun v => !isIdentifier (trim v)
  | textBehind => k.tail.any fun t => t.getLast? != some ')' && t.contains ')'
  | unclosed => k.tail.any fun t => t.getLast? != some ')'
  | opensAgain => k.enclosed?.any (·.contains '(')
  | closesBefore => k.enclosed?.any (·.contains ')')
  | badName => !isIdentifier (trim k.name)

/-- What a body is blamed for. -/
def first? (body : Text) : Option Flaw := order.find? (spoils (Cut.ofBody (trim body)))

end Flaw

/-! ## The parser at the marks -/

namespace Cut

variable {k : Cut} {body : Text}

/-- A colon that ends no capture stands behind the parenthesis. -/
theorem IsAtMarks.open_mem_before (h : k.IsAtMarks) (hnone : k.capture = none)
    {before after : Text} (hcall : k.call = before ++ ':' :: after) : '(' ∈ before := by
  rw [call] at hcall
  rcases ht : k.tail with _ | t
  · rw [ht, Option.elim_none, List.append_nil] at hcall
    exact absurd (hcall ▸ List.mem_append_right _ List.mem_cons_self) (h.colon hnone)
  · rw [ht, Option.elim_some] at hcall
    exact mem_of_append_cons_eq (h.colon hnone) (by decide) hcall

theorem IsAtMarks.splitCapture_source (h : k.IsAtMarks) :
    splitCapture k.source =
      if Flaw.badCapture.spoils k then .error .invalidVariableName
      else .ok (k.capture.map trim, k.call) := by
  rcases hv : k.capture with _ | v
  · have hsource : k.source = k.call := by simp [source, hv]
    have hsound : Flaw.badCapture.spoils k = false := by simp [Flaw.spoils, hv]
    rw [hsource, splitCapture, hsound]
    rcases hcut : cutAtChar? ':' k.call with _ | ⟨before, after⟩
    · rfl
    · have hopen := h.open_mem_before hv (eq_of_cutAtChar? hcut).1
      simp [hopen]
  · obtain ⟨hcolon, hopen⟩ := h.capture v hv
    have hsource : k.source = v ++ ':' :: k.call := by simp [source, hv]
    have hflaw : Flaw.badCapture.spoils k = !isIdentifier (trim v) := by simp [Flaw.spoils, hv]
    rw [hsource, splitCapture, cutAtChar?_append hcolon, hflaw]
    by_cases hid : isIdentifier (trim v) = true
    · simp [hopen, hid]
    · simp [hopen, hid]

theorem IsAtMarks.splitArguments_call (h : k.IsAtMarks) :
    splitArguments k.call =
      match Flaw.ofTail.find? (Flaw.spoils k) with
      | some flaw => .error flaw.fault
      | none => .ok (k.formula.name, k.formula.arguments) := by
  rcases ht : k.tail with _ | t
  · have hcall : k.call = k.name := by simp [call, ht]
    have henclosed : k.enclosed? = none := by simp [enclosed?, ht]
    have hsound : Flaw.ofTail.find? (Flaw.spoils k) = none := by
      simp [Flaw.ofTail, Flaw.spoils, ht, henclosed]
    rw [hcall, splitArguments, cutAtChar?_eq_none h.name, hsound]
    simp [formula, henclosed]
  have hcall : k.call = k.name ++ '(' :: t := by simp [call, ht]
  rw [hcall, splitArguments, cutAtChar?_append h.name]
  have hbefore := before?_singleton ')' t
  by_cases hend : t.getLast? = some ')'
  · have henclosed : k.enclosed? = some t.dropLast := by simp [enclosed?, ht, hend]
    have hflaws : Flaw.ofTail.find? (Flaw.spoils k) =
        [Flaw.opensAgain, .closesBefore].find? (Flaw.spoils k) := by
      simp [Flaw.ofTail, Flaw.spoils, ht, hend]
    rw [if_pos hend] at hbefore
    rw [hflaws]
    generalize t.dropLast = inner at henclosed hbefore
    by_cases hopen : '(' ∈ inner
    · simp [Flaw.spoils, henclosed, hbefore, hopen, Flaw.fault]
    by_cases hclose : ')' ∈ inner
    · simp [Flaw.spoils, henclosed, hbefore, hopen, hclose, Flaw.fault]
    simp [Flaw.spoils, henclosed, hbefore, hopen, hclose, formula, splitOn_eq]
  · have henclosed : k.enclosed? = none := by simp [enclosed?, ht, hend]
    rw [if_neg hend] at hbefore
    by_cases hclose : ')' ∈ t
    · simp [Flaw.ofTail, Flaw.spoils, ht, hbefore, hend, hclose, Flaw.fault]
    · simp [Flaw.ofTail, Flaw.spoils, ht, hbefore, hend, hclose, Flaw.fault]

/-- A body is blamed for its first flaw, and without one it is read. -/
theorem IsAtMarks.parse_eq (h : k.IsAtMarks) (hbody : trim body = k.source) :
    parse body =
      match Flaw.order.find? (Flaw.spoils k) with
      | some flaw => .error flaw.fault
      | none => .ok k.formula := by
  rw [parse, hbody, h.splitCapture_source, Flaw.order, List.find?_cons, List.find?_cons,
    List.find?_append]
  by_cases hblank : Flaw.blank.spoils k
  · have hempty : k.source.isEmpty = true := hblank
    rw [hempty, hblank]
    rfl
  have hempty : k.source.isEmpty = false := by simpa [Flaw.spoils] using hblank
  by_cases hcapture : Flaw.badCapture.spoils k
  · simp [hempty, hblank, hcapture, Flaw.fault]
  rcases htail : Flaw.ofTail.find? (Flaw.spoils k) with _ | flaw
  · have hflaw : Flaw.badName.spoils k = !isIdentifier k.formula.name := rfl
    by_cases hname : isIdentifier k.formula.name = true
    · simp [hempty, hblank, hcapture, h.splitArguments_call, htail, hflaw, hname]
      rfl
    · simp [hempty, hblank, hcapture, h.splitArguments_call, htail, hflaw, hname]
      rfl
  · simp [hempty, hblank, hcapture, h.splitArguments_call, htail]

end Cut

/-! ## What is read -/

namespace Parts

variable {p : Parts}

/-- The marks at which a body of these parts is cut. -/
def cut (p : Parts) : Cut := ⟨p.capture, p.name, p.arguments.map (· ++ [')'])⟩

@[simp] theorem capture_cut (p : Parts) : p.cut.capture = p.capture := rfl

@[simp] theorem name_cut (p : Parts) : p.cut.name = p.name := rfl

theorem source_cut (p : Parts) : p.cut.source = p.source := by
  rcases p with ⟨capture, name, _ | a⟩
  · rfl
  · rfl

@[simp] theorem enclosed?_cut (p : Parts) : p.cut.enclosed? = p.arguments := by
  rcases p with ⟨capture, name, _ | a⟩
  · rfl
  · simp [cut, Cut.enclosed?]

theorem formula_cut (p : Parts) : p.cut.formula = p.formula := by
  rw [Cut.formula, enclosed?_cut]
  rfl

theorem exists_cut_eq {k : Cut} (h : Flaw.unclosed.spoils k = false) : ∃ p : Parts, p.cut = k := by
  rcases k with ⟨capture, name, _ | t⟩
  · exact ⟨⟨capture, name, none⟩, rfl⟩
  · have hend : t.getLast? = some ')' := by simpa [Flaw.spoils] using h
    obtain ⟨inner, rfl⟩ := List.getLast?_eq_some_iff.mp hend
    exact ⟨⟨capture, name, some inner⟩, rfl⟩

/-- No part of an identifier is a mark, with blanks around it or without. -/
theorem mark_not_mem {c : Char} {t : Text} (h : isIdentifier (trim t) = true)
    (hc : c ∈ formulaMarks) : c ∉ t := by
  have hall : formulaMarks.all (!isBlank ·) = true := by decide
  have hblank : isBlank c = false := by simpa using List.all_eq_true.mp hall c hc
  exact fun hmem => mark_not_mem_identifier h hc ((mem_trim_iff hblank).mpr hmem)

theorem AreWellFormed.isAtMarks_cut (h : p.AreWellFormed) : p.cut.IsAtMarks where
  capture v hv := ⟨mark_not_mem (h.capture v hv) (by decide),
    mark_not_mem (h.capture v hv) (by decide)⟩
  name := mark_not_mem h.name (by decide)
  colon _ := mark_not_mem h.name (by decide)

/-- Parts are well formed if their body has none of the flaws, and only then. -/
theorem areWellFormed_iff : p.AreWellFormed ↔ Flaw.order.find? (Flaw.spoils p.cut) = none := by
  rw [List.find?_eq_none]
  constructor
  · intro h flaw _
    have hclosed : ∀ t, p.cut.tail = some t → t.getLast? = some ')' := by
      intro t ht
      obtain ⟨a, -, rfl⟩ := Option.map_eq_some_iff.mp ht
      exact List.getLast?_concat
    cases flaw with
    | blank =>
      have hname : p.name ≠ [] := fun he => identifier_ne_nil h.name (by rw [he]; rfl)
      simp [Flaw.spoils, Cut.source, Cut.call, cut, hname]
    | badCapture => simpa [Flaw.spoils, Option.any_eq_false] using h.capture
    | textBehind =>
      simpa [Flaw.spoils, Option.any_eq_false] using fun t ht hend => absurd (hclosed t ht) hend
    | unclosed => simpa [Flaw.spoils, Option.any_eq_false] using hclosed
    | opensAgain => simpa [Flaw.spoils, Option.any_eq_false] using fun a ha => (h.arguments a ha).1
    | closesBefore =>
      simpa [Flaw.spoils, Option.any_eq_false] using fun a ha => (h.arguments a ha).2
    | badName => simpa [Flaw.spoils] using h.name
  · intro h
    have hcapture := h .badCapture (by decide)
    have hopen := h .opensAgain (by decide)
    have hclose := h .closesBefore (by decide)
    have hname := h .badName (by decide)
    simp only [Flaw.spoils, Bool.not_eq_true, Option.any_eq_false,
      enclosed?_cut] at hcapture hopen hclose hname
    refine ⟨fun v hv => ?_, by simpa using hname, fun a ha => ⟨?_, ?_⟩⟩
    · simpa using hcapture v hv
    · simpa using hopen a ha
    · simpa using hclose a ha

end Parts

variable {body : Text}

/-- A body is read as the formula that it is written as. -/
theorem parse_eq_ok_iff {f : Formula} : parse body = .ok f ↔ f.IsWrittenIn body := by
  constructor
  · intro h
    have hparse := (Cut.isAtMarks_ofBody (trim body)).parse_eq (Cut.source_ofBody _).symm
    rcases hfirst : Flaw.order.find? (Flaw.spoils (Cut.ofBody (trim body))) with _ | flaw
    · obtain ⟨p, hp⟩ := Parts.exists_cut_eq (by
        simpa using List.find?_eq_none.mp hfirst .unclosed (by decide))
      rw [h, hfirst] at hparse
      rw [← hp] at hfirst hparse
      refine ⟨p, ?_, Parts.areWellFormed_iff.mpr hfirst, ?_⟩
      · rw [← p.source_cut, hp, Cut.source_ofBody]
      · rw [← p.formula_cut]
        exact (Except.ok.inj hparse).symm
    · rw [h, hfirst] at hparse
      cases hparse
  · rintro ⟨p, hbody, hwell, rfl⟩
    rw [hwell.isAtMarks_cut.parse_eq (by rw [hbody, p.source_cut]),
      Parts.areWellFormed_iff.mp hwell, p.formula_cut]

/-- A body that is not read is blamed for its first flaw. -/
theorem parse_eq_error_iff {fault : FormulaFault} :
    parse body = .error fault ↔ ∃ flaw, Flaw.first? body = some flaw ∧ flaw.fault = fault := by
  rw [(Cut.isAtMarks_ofBody (trim body)).parse_eq (Cut.source_ofBody _).symm, Flaw.first?]
  rcases Flaw.order.find? (Flaw.spoils (Cut.ofBody (trim body))) with _ | flaw
  · simp
  · simp

theorem not_isWrittenIn_of_first? {flaw : Flaw} (h : Flaw.first? body = some flaw) :
    ¬ ∃ f : Formula, f.IsWrittenIn body := by
  rintro ⟨f, hwritten⟩
  have hread := parse_eq_ok_iff.mpr hwritten
  rw [parse_eq_error_iff.mpr ⟨flaw, h, rfl⟩] at hread
  cases hread

end Formula

/-! ## Templates -/

/-- A text stands for itself, and a body for the formula that it is written as. -/
inductive Segment.StandsFor : Segment → Piece → Prop
  | text (text : Text) : StandsFor (.text text) (.text text)
  | formula {body : Text} (start : Nat) {f : Formula} (h : f.IsWrittenIn body) :
      StandsFor (.formula body start) (.formula f)

namespace Snippet

variable {id : Text} {s : Segment}

theorem pieceOf_eq_ok_iff {p : Piece} : pieceOf id s = .ok p ↔ s.StandsFor p := by
  constructor
  · intro h
    rcases s with t | ⟨body, start⟩
    · cases h
      exact .text t
    · obtain ⟨f, hf, rfl⟩ := of_pieceOf_formula h
      exact .formula start (Formula.parse_eq_ok_iff.mp hf)
  · rintro (t | ⟨start, hwritten⟩)
    · rfl
    · rw [pieceOf, Formula.parse_eq_ok_iff.mpr hwritten]

theorem pieceOf_eq_error_iff {err : Error} :
    pieceOf id s = .error err ↔ ∃ body start flaw, s = .formula body start ∧
      Formula.Flaw.first? body = some flaw ∧ err = .invalidFormula id body start flaw.fault := by
  constructor
  · intro h
    rcases s with t | ⟨body, start⟩
    · cases h
    · rw [pieceOf] at h
      rcases hparse : Formula.parse body with fault | f
      · rw [hparse] at h
        cases h
        obtain ⟨flaw, hfirst, rfl⟩ := Formula.parse_eq_error_iff.mp hparse
        exact ⟨body, start, flaw, rfl, hfirst, rfl⟩
      · rw [hparse] at h
        cases h
  · rintro ⟨body, start, flaw, rfl, hfirst, rfl⟩
    rw [pieceOf, Formula.parse_eq_error_iff.mpr ⟨flaw, hfirst, rfl⟩]

/-- Segments are read unless one is a formula that is not written as the grammar says. -/
theorem forall_exists_pieceOf_iff {segments : List Segment} :
    (∀ s ∈ segments, ∃ p, pieceOf id s = .ok p) ↔
      ∀ body start, .formula body start ∈ segments → ∃ f : Formula, f.IsWrittenIn body := by
  simp only [pieceOf_eq_ok_iff]
  constructor
  · intro h body start hmem
    obtain ⟨p, hstands⟩ := h _ hmem
    cases hstands with
    | formula _ hwritten => exact ⟨_, hwritten⟩
  · intro h s hmem
    rcases s with t | ⟨body, start⟩
    · exact ⟨_, .text t⟩
    · obtain ⟨f, hwritten⟩ := h body start hmem
      exact ⟨_, .formula start hwritten⟩

theorem compile_eq_error {e : SharedEffect} {err : Error} :
    compile e = .error err ↔ piecesOf e.effect.id e.effect.code = .error err := by
  unfold compile
  cases piecesOf e.effect.id e.effect.code <;> simp [Except.map]

/-- A template is compiled exactly if each of its bodies is written as the grammar says, and then
each of its segments becomes the piece that it stands for. Otherwise the first body that is not is
reported, with the place at which it is opened and with the first of its flaws. -/
theorem compiles_by_the_grammar (e : SharedEffect) :
    ((∃ snippet, compile e = .ok snippet) ↔
      ∀ body start, .formula body start ∈ Segment.scan e.effect.code →
        ∃ f : Formula, f.IsWrittenIn body) ∧
    (∀ snippet, compile e = .ok snippet ↔
      ∃ ps, (Segment.scan e.effect.code).Forall₂ Segment.StandsFor ps ∧
        snippet = ps.map (SnippetNode.mk e)) ∧
    ∀ err, compile e = .error err ↔
      ∃ pre body start post flaw, Segment.scan e.effect.code = pre ++ .formula body start :: post ∧
        (∀ body' start', .formula body' start' ∈ pre → ∃ f : Formula, f.IsWrittenIn body') ∧
        (¬ ∃ f : Formula, f.IsWrittenIn body) ∧ Formula.Flaw.first? body = some flaw ∧
        err = .invalidFormula e.effect.id body start flaw.fault ∧
        ∃ front back, e.effect.code.splitBytes? start =
          some (front, Segment.formulaSource body ++ back) := by
  refine ⟨?_, fun snippet => ?_, fun err => ?_⟩
  · have hcompile : (∃ snippet, compile e = .ok snippet) ↔
        ∃ ps, piecesOf e.effect.id e.effect.code = .ok ps :=
      ⟨fun ⟨_, h⟩ => let ⟨ps, hps, _⟩ := compile_eq_ok.mp h; ⟨ps, hps⟩,
        fun ⟨ps, hps⟩ => ⟨_, compile_eq_ok.mpr ⟨ps, hps, rfl⟩⟩⟩
    rw [hcompile, piecesOf, exists_mapM_eq_ok_iff, forall_exists_pieceOf_iff]
  · rw [compile_eq_ok]
    simp only [piecesOf, mapM_eq_ok_iff, pieceOf_eq_ok_iff]
  · rw [compile_eq_error, piecesOf, mapM_eq_error_iff]
    simp only [forall_exists_pieceOf_iff, pieceOf_eq_error_iff]
    constructor
    · rintro ⟨pre, s, post, hscan, hpre, body, start, flaw, rfl, hfirst, rfl⟩
      exact ⟨pre, body, start, post, flaw, hscan, hpre,
        Formula.not_isWrittenIn_of_first? hfirst, hfirst, rfl,
        (Segment.exists_source_of_mem_scan (hscan ▸ by simp)).2⟩
    · rintro ⟨pre, body, start, post, flaw, hscan, hpre, -, hfirst, rfl, -⟩
      exact ⟨pre, _, post, hscan, hpre, body, start, flaw, rfl, hfirst, rfl⟩

/-- The first body is read, blanks and all. The second has a bad capture, a bad name and arguments
that are not closed, and it is blamed for its capture. -/
theorem a_bad_capture_is_blamed_first :
    let e : SharedEffect :=
      ⟨0, { id := ['e'], code := "${ i :name(a, b)}é${ 1x: 2f((}".toList }⟩
    let good := " i :name(a, b)".toList
    let bad := " 1x: 2f((".toList
    Segment.scan e.effect.code = [.formula good 0, .text "é".toList, .formula bad 19] ∧
      Formula.IsWrittenIn ⟨"name".toList, ["a".toList, " b".toList], some ['i']⟩ good ∧
      Formula.Flaw.first? bad = some .badCapture ∧
      compile e = .error (.invalidFormula ['e'] bad 19 .invalidVariableName) := by
  intro e good bad
  obtain ⟨-, -, herror⟩ := compiles_by_the_grammar e
  have hscan : Segment.scan e.effect.code =
      [.formula good 0, .text "é".toList, .formula bad 19] := by
    decide +kernel
  have hwritten :
      Formula.IsWrittenIn ⟨"name".toList, ["a".toList, " b".toList], some ['i']⟩ good := by
    refine ⟨⟨some "i ".toList, "name".toList, some "a, b".toList⟩, by decide +kernel, ?_,
      by decide +kernel⟩
    exact ⟨by decide +kernel, by decide +kernel, by decide +kernel⟩
  have hfirst : Formula.Flaw.first? bad = some .badCapture := by decide +kernel
  refine ⟨hscan, hwritten, hfirst, (herror _).mpr ?_⟩
  refine ⟨[.formula good 0, .text "é".toList], bad, 19, [], .badCapture, hscan, ?_, ?_, hfirst, rfl,
    "${ i :name(a, b)}é".toList, [], by decide +kernel⟩
  · intro body start hmem
    obtain ⟨rfl, -⟩ : body = good ∧ start = 0 := by simpa using hmem
    exact ⟨_, hwritten⟩
  · exact Formula.not_isWrittenIn_of_first? hfirst

end Snippet

end SnippetEngine
