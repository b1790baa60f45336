-- The text and the cursor that a result leaves. They are found apart, the one by putting texts one
-- behind another and the other by adding up their bytes, and they fit: the cursor stands where the
-- marker was. The imports come in one block, with a line for each one that is asked for and missing.
import SnippetEngine.Proofs.Document.Layout
import SnippetEngine.Proofs.Session.Failures

namespace SnippetEngine

open Session Text Code

/-! ## The marker -/

namespace Text

/-- In `x ++ (m ++ y)`, the text `m` is found between `x` and `y` and nowhere else. -/
def IsOnlyBetween (m x y : Text) : Prop :=
  ∀ x' y', x ++ (m ++ y) = x' ++ (m ++ y') → x' = x

variable {m x y : Text}

theorem isOnlyBetween_singleton {c : Char} (hx : c ∉ x) (hy : c ∉ y) : IsOnlyBetween [c] x y := by
  intro x' y' heq
  have hcount := congrArg (List.count c) heq
  simp only [List.count_append, List.count_singleton_self, List.count_eq_zero_of_not_mem hx,
    List.count_eq_zero_of_not_mem hy] at hcount
  have hx' : c ∉ x' := List.count_eq_zero.mp (by omega)
  have hfront := congrArg (List.takeWhile (· != c)) heq
  rw [List.singleton_append, List.singleton_append, takeWhile_append_cons hx,
    takeWhile_append_cons hx'] at hfront
  exact hfront.symm

namespace IsOnlyBetween

theorem cutAround? (h : IsOnlyBetween m x y) :
    cutAround? m (x ++ (m ++ y)) = some (x, y) := by
  have hsome : (Text.cutAround? m (x ++ (m ++ y))).isSome := by
    have hoffset := isSome_offsetOf?_iff.mpr (List.infix_append' x m y)
    rwa [offsetOf?, Option.isSome_map] at hoffset
  obtain ⟨⟨x', y'⟩, hcut⟩ := Option.isSome_iff_exists.mp hsome
  have heq := eq_of_cutAround? hcut
  rw [List.append_assoc] at heq
  obtain rfl := h x' y' heq
  obtain rfl := List.append_cancel_left (List.append_cancel_left heq)
  exact hcut

theorem not_infix (h : IsOnlyBetween m x y) (hne : m ≠ []) : ¬ m <:+: y := by
  rintro ⟨s, r, rfl⟩
  have hlater := h (x ++ (m ++ s)) r (by simp)
  have hlength := congrArg List.length hlater
  simp only [List.length_append] at hlength
  exact hne (List.length_eq_zero_iff.mp (by omega))

/-- What is trimmed around the text does not matter. -/
theorem trim (h : IsOnlyBetween m x y) : IsOnlyBetween m (trimStart x) (trimEnd y) := by
  have hx : x.takeWhile isBlank ++ trimStart x = x := List.takeWhile_append_dropWhile
  have hy := trimEnd_append_blanks y
  intro x' y' heq
  have houter := h (x.takeWhile isBlank ++ x') (y' ++ (y.reverse.takeWhile isBlank).reverse) <| by
    nth_rewrite 1 [← hx, ← hy]
    simpa using congrArg (x.takeWhile isBlank ++ · ++ (y.reverse.takeWhile isBlank).reverse) heq
  exact List.append_cancel_left (houter.trans hx.symm)

end IsOnlyBetween

/-- A result is cut where its only marker is, which is taken out, or else at its end. Blanks around
the result are left out. -/
inductive CutsAtMarker (m : Text) : (result front back : Text) → Prop
  | marked {x y : Text} (h : IsOnlyBetween m x y) :
      CutsAtMarker m (x ++ (m ++ y)) (trimStart x) (trimEnd y)
  | unmarked {result : Text} (h : ¬ m <:+: result) : CutsAtMarker m result (trim result) []

theorem CutsAtMarker.takeMarkers {m result front back : Text} (h : CutsAtMarker m result front back)
    (hne : m ≠ []) (htight : IsTight m) :
    Document.takeMarkers m (trim result) = (front ++ back, front.byteSize) := by
  unfold Document.takeMarkers
  have hempty : m.isEmpty = false := by simpa using hne
  rw [hempty]
  cases h with
  | @marked x y h =>
    have hcut := h.trim.cutAround?
    have hrest : replaceAll m [] (trimEnd y) = trimEnd y := by
      rw [replaceAll, hempty]
      exact replaceFrom_eq_self (h.trim.not_infix hne)
    rw [trim_append hne htight, replaceAll_of_cutAround? hne [] hcut, offsetOf?, hcut, hrest]
    simp
  | unmarked h =>
    have hnone : ¬ m <:+: trim result := fun hm => h (hm.trans (isInfix_trim result))
    rw [replaceAll, hempty, offsetOf?_eq_none hnone]
    simp [replaceFrom_eq_self hnone]

end Text

/-! ## The import block -/

namespace Code

/-- The lines of the code that import something. -/
def importing (code : Text) : List Text := (lines code).filter fun l => (importedName? l).isSome

theorem importing_append {s : Text} (hs : IsClosed s) (t : Text) :
    importing (s ++ t) = importing s ++ importing t := by
  rw [importing, lines, linesWithEnds_append_closed hs, List.map_append, List.filter_append]
  rfl

theorem importing_newlines {t : Text} (h : ∀ c ∈ t, c = '\n') : importing t = [] := by
  induction t with
  | nil => rfl
  | cons c t ih =>
    obtain ⟨rfl, ht⟩ := List.forall_mem_cons.mp h
    have happend := importing_append (isClosed_append_newline []) t
    rw [ih ht] at happend
    exact happend

theorem withoutLineEnd_importLine (name : Text) :
    withoutLineEnd (importLine name) = bareImport name := by
  have hfeed : before? ['\n'] (importLine name) = some (bareImport name) :=
    before?_eq_some.mpr (importLine_eq name)
  have hreturn : before? ['\r'] (bareImport name) = none := by
    rw [before?_singleton, if_neg]
    rw [bareImport, ← List.append_assoc, List.getLast?_concat]
    decide
  rw [withoutLineEnd, hfeed]
  simp [hreturn]

theorem linesWithEnds_importLines {names : List Text} (h : ∀ name ∈ names, '\n' ∉ name) :
    linesWithEnds (names.flatMap importLine) = names.map importLine := by
  induction names with
  | nil => rfl
  | cons name names ih =>
    obtain ⟨hname, hnames⟩ := List.forall_mem_cons.mp h
    rw [List.flatMap_cons, linesWithEnds_append_closed (isClosed_importLine name), ih hnames,
      linesWithEnds_importLine hname]
    rfl

theorem importing_importLines {names : List Text} (h : ∀ name ∈ names, '\n' ∉ name) :
    importing (names.flatMap importLine) = names.map bareImport := by
  have hlines : lines (names.flatMap importLine) = names.map bareImport := by
    rw [lines, linesWithEnds_importLines h, List.map_map]
    exact List.map_congr_left fun name _ => withoutLineEnd_importLine name
  rw [importing, hlines, List.filter_eq_self]
  intro line hline
  obtain ⟨name, -, rfl⟩ := List.mem_map.mp hline
  rw [importedName?_bareImport]
  rfl

end Code

/-! ## Requests -/

namespace Document

variable {d : Document} {requests : List Text}

/-- The document in which these imports are asked for, one after another. -/
def asking (d : Document) (requests : List Text) : Document :=
  requests.foldl (fun d request => d.requestImport (trim request)) d

/-- The imports asked for, each one once and where it is asked for first. -/
def asked (requests : List Text) : List Text :=
  ((requests.map trim).filter (· ≠ [])).eraseDups

theorem asked_append (requests : List Text) (request : Text) :
    asked (requests ++ [request]) =
      if trim request = [] ∨ trim request ∈ asked requests then asked requests
      else asked requests ++ [trim request] := by
  simp only [asked, List.map_append, List.filter_append, List.eraseDups_append,
    List.mem_eraseDups]
  generalize (requests.map trim).filter (· ≠ []) = names
  by_cases hnil : trim request = []
  · simp [hnil]
  · by_cases hmem : trim request ∈ names
    · simp [hnil, hmem, List.removeAll]
    · simp [hnil, hmem, List.removeAll, List.eraseDups_cons]

theorem exists_of_mem_asked {name : Text} (h : name ∈ asked requests) :
    ∃ request ∈ requests, trim request = name := by
  rw [asked, List.mem_eraseDups] at h
  exact List.mem_map.mp (List.mem_filter.mp h).1

theorem asking_append (d : Document) (requests : List Text) (request : Text) :
    d.asking (requests ++ [request]) = (d.asking requests).requestImport (trim request) :=
  List.foldl_append

/-- Asking for imports changes nothing but what is asked for. -/
theorem asking_eq (h : d.gathered.imports = []) (requests : List Text) :
    d.asking requests = { d with gathered := { d.gathered with imports := asked requests } } := by
  induction requests using List.reverseRecOn with
  | nil =>
    have hnil : asked [] = d.gathered.imports := h.symm
    rw [hnil]
    rfl
  | append_singleton requests request ih =>
    rw [asking_append, ih, asked_append, requestImport]
    by_cases hskip : trim request = [] ∨ trim request ∈ asked requests
    · simp [hskip]
    · simp [hskip]

/-! ## The result in its place -/

variable {before after result front back : Text}

theorem importing_importBlock (h : ∀ name ∈ d.missingImports, '\n' ∉ name) (head rest : Text) :
    importing (d.importBlock head rest) = d.missingImports.map bareImport := by
  by_cases hmissing : d.missingImports = []
  · unfold importBlock
    rw [hmissing]
    rfl
  · obtain ⟨gap, close, hblock, -, hgap, hclose⟩ := exists_importBlock hmissing head rest
    have hlines := isClosed_flatMap isClosed_importLine d.missingImports
    rw [hblock, importing_append ((isClosed_of_newlines hgap).append hlines),
      importing_append (isClosed_of_newlines hgap), importing_newlines hgap,
      importing_newlines hclose, importing_importLines h, List.nil_append, List.append_nil]

/-- Without helpers, a result is put together from parts of the base text, the import block and
the two sides of the cursor. -/
theorem exists_insert_of_no_helpers (hhelpers : d.gathered.helpers = [])
    (hmarkers : takeMarkers d.config.cursorMarker (trim result) = (front ++ back, front.byteSize))
    (before after : Text) :
    ∃ head between block, before = head ++ between ∧
      d.insert before after result =
        { text := head ++ block ++ between ++ front ++ (back ++ after)
          cursor := byteSize (head ++ block ++ between ++ front) } ∧
      block = d.importBlock head (d.base.drop head.length) := by
  have hplacement : d.placeHelpers (trim result) = { snippet := trim result } := by
    rw [placeHelpers, hhelpers]
    rfl
  obtain ⟨head, between, sections, -, hbefore, hnone, hinsert⟩ :=
    exists_insert_eq d before after result
  rw [hplacement] at hnone hinsert
  refine ⟨head, between, _, hbefore, ?_, rfl⟩
  dsimp only at hinsert
  rw [hinsert, hmarkers, hnone rfl, ← byteSize_append]
  simp only [List.append_assoc, List.append_nil]

end Document

/-- A result without helpers takes the place of the selection, and the cursor stands where its only
marker was, or at its end if it has none. In front of it, at the selection or earlier, there is one
block with a line for each import that is asked for and missing, in the order in which they are
asked for, and each of these lines is a line of the text. Without such imports there is no block. -/
theorem results_stand_around_their_cursor {d : Document} {requests : List Text}
    {before selected after result front back : Text} {effect : Option Effect}
    (hbase : d.base = before ++ (selected ++ after))
    (hstart : before.byteSize = d.selection.start)
    (hstop : (before ++ selected).byteSize = d.selection.stop)
    (himports : d.gathered.imports = []) (hhelpers : d.gathered.helpers = [])
    (hlines : ∀ request ∈ requests, '\n' ∉ trim request)
    (hmarker : d.config.cursorMarker ≠ []) (htight : IsTight d.config.cursorMarker)
    (hcut : CutsAtMarker d.config.cursorMarker result front back)
    (htarget : ¬ ∃ e, effect = some e ∧ e.TargetsElsewhere) :
    let missing := (Document.asked requests).filter fun name => !hasImport d.base name
    let e := final (Document.applyResult result effect) (d.asking requests)
    outcome (Document.applyResult result effect) (d.asking requests) = .ok () ∧
      ∃ head between block cursor, before = head ++ between ∧ e.cursor? = some cursor ∧
        e.text.splitBytes? cursor = some (head ++ block ++ between ++ front, back ++ after) ∧
        importing block = missing.map bareImport ∧ (missing = [] → block = []) ∧
        (missing ≠ [] → ∃ gap close, block = gap ++ missing.flatMap importLine ++ close ∧
          linesWithEnds e.text = linesWithEnds (head ++ gap) ++ missing.map importLine ++
            linesWithEnds (close ++ between ++ front ++ back ++ after)) := by
  intro missing e
  have hasking := Document.asking_eq himports requests
  obtain ⟨hsame, hselection, hconfig, hnone⟩ : (d.asking requests).base = d.base ∧
      (d.asking requests).selection = d.selection ∧ (d.asking requests).config = d.config ∧
      (d.asking requests).gathered.helpers = [] := by
    rw [hasking]
    exact ⟨rfl, rfl, rfl, hhelpers⟩
  have hmissing : (d.asking requests).missingImports = missing := by
    rw [Document.missingImports, hsame, hasking]
  have hnames : ∀ name ∈ missing, '\n' ∉ name := by
    intro name hname
    obtain ⟨request, hrequest, rfl⟩ := Document.exists_of_mem_asked (List.mem_filter.mp hname).1
    exact hlines request hrequest
  have hplace : (d.asking requests).around? = some (before, after) :=
    Document.around?_eq_some.mpr ⟨selected, hsame.trans hbase, hselection ▸ hstart,
      hselection ▸ hstop⟩
  have hok := Document.checkTarget_eq_ok.mpr htarget
  have hfinal := Document.final_applyResult result hok hplace
  obtain ⟨head, between, block, rfl, hinsert, hblock⟩ := Document.exists_insert_of_no_helpers hnone
    (hconfig ▸ hcut.takeMarkers hmarker htight) before after
  rw [hinsert] at hfinal
  have htext : e.text = head ++ block ++ between ++ front ++ (back ++ after) :=
    congrArg Document.text hfinal
  refine ⟨Document.applyResult_eq_ok.mpr ⟨hok, by rw [hplace]; rfl⟩, head, between, block,
    byteSize (head ++ block ++ between ++ front), rfl, ?_, ?_, ?_, ?_, ?_⟩
  · exact congrArg Document.cursor? hfinal
  · exact splitBytes?_eq_some.mpr ⟨htext, rfl⟩
  · rw [hblock, Document.importing_importBlock (hmissing ▸ hnames), hmissing]
  · intro hnil
    rw [hblock, Document.importBlock, hmissing, hnil]
    rfl
  · intro hne
    rw [← hmissing] at hne
    obtain ⟨gap, close, hgap, hclosed, -, -⟩ := Document.exists_importBlock hne head
      ((d.asking requests).base.drop head.length)
    rw [hmissing, ← hblock] at hgap
    have hparts : e.text = (head ++ gap) ++ (missing.flatMap importLine ++
        (close ++ between ++ front ++ back ++ after)) := by
      rw [htext, hgap]
      simp only [List.append_assoc]
    refine ⟨gap, close, hgap, ?_⟩
    rw [hparts, linesWithEnds_around_importLines hclosed, linesWithEnds_importLines hnames]

/-- A document with a wide letter in front of its selection and another one in it. -/
def wideDocument : Document where
  base := "import a;\nclass Ä \x7bé\x7d\n".toList
  config := { cursorMarker := ['|'] }
  selection := ⟨20, 22⟩

/-- An import that is asked for twice is written once, and one that is there is not written. -/
theorem a_wide_letter_gives_way :
    let requests := [" b ".toList, ['a'], ['b'], []]
    let d := wideDocument.asking requests
    let e := final (Document.applyResult " x|y ".toList none) d
    d.gathered.imports = [['b'], ['a']] ∧
      outcome (Document.applyResult " x|y ".toList none) d = .ok () ∧
      e.text = "import a;\nimport b;\nclass Ä \x7bxy\x7d\n".toList ∧ e.cursor? = some 31 ∧
      ∃ head between block, "import a;\nclass Ä \x7b".toList = head ++ between ∧
        splitBytes? e.text 31 = some (head ++ block ++ between ++ ['x'], "y\x7d\n".toList) ∧
        importing block = ["import b;".toList] := by
  intro requests d e
  have honly : IsOnlyBetween ['|'] [' ', 'x'] ['y', ' '] :=
    isOnlyBetween_singleton (by decide) (by decide)
  have hcut : CutsAtMarker ['|'] " x|y ".toList ['x'] ['y'] := .marked honly
  obtain ⟨hok, head, between, block, cursor, hbefore, hcursor, hsplit, himporting, -⟩ :=
    @results_stand_around_their_cursor wideDocument requests "import a;\nclass Ä \x7b".toList
      ['é'] "\x7d\n".toList " x|y ".toList ['x'] ['y'] none (by decide) (by decide) (by decide) rfl
      rfl (by decide) (by decide) (by decide) hcut (by simp)
  have hplace : e.cursor? = some 31 := by decide +kernel
  obtain rfl : cursor = 31 := Option.some.inj (hcursor.symm.trans hplace)
  refine ⟨by decide +kernel, hok, by decide +kernel, hplace, head, between, block, hbefore,
    hsplit, ?_⟩
  rw [himporting]
  decide +kernel

end SnippetEngine
