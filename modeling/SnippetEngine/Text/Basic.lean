-- Texts are lists of characters. Where a place in a text is answered or asked for, it is
-- counted in UTF-8 bytes, and a place inside a character is no place at all.
namespace SnippetEngine

/-- A text, character by character. -/
abbrev Text := List Char

namespace Text

/-! ## Length and places -/

/-- The length in UTF-8 bytes. -/
def byteSize (t : Text) : Nat := t.foldr (fun c n => c.utf8Size + n) 0

@[simp] theorem byteSize_nil : byteSize [] = 0 := rfl

@[simp] theorem byteSize_cons (c : Char) (t : Text) : byteSize (c :: t) = c.utf8Size + byteSize t :=
  rfl

@[simp] theorem byteSize_append (s t : Text) : byteSize (s ++ t) = byteSize s + byteSize t := by
  induction s with
  | nil => simp [byteSize_nil]
  | cons c s ih => simp only [List.cons_append, byteSize_cons, ih, Nat.add_assoc]

/-- The text before and after the byte offset, if a character starts or the text ends there. -/
def splitBytes? : Text → Nat → Option (Text × Text)
  | t, 0 => some ([], t)
  | [], _ + 1 => none
  | c :: r, n + 1 =>
    if c.utf8Size ≤ n + 1 then
      (splitBytes? r (n + 1 - c.utf8Size)).map fun (before, after) => (c :: before, after)
    else none

theorem splitBytes?_eq_some {t before after : Text} {n : Nat} :
    splitBytes? t n = some (before, after) ↔ t = before ++ after ∧ byteSize before = n := by
  induction t generalizing n before with
  | nil =>
    cases n with
    | zero => cases before <;> simp [splitBytes?, byteSize_nil, eq_comm]
    | succ n => cases before <;> simp [splitBytes?, byteSize_nil]
  | cons c r ih =>
    have hpos := Char.utf8Size_pos c
    cases n with
    | zero =>
      cases before with
      | nil => simp [splitBytes?, byteSize_nil, eq_comm]
      | cons d b =>
        have := Char.utf8Size_pos d
        simp [splitBytes?, byteSize_cons]
        omega
    | succ n =>
      cases before with
      | nil =>
        simp only [splitBytes?, byteSize_nil]
        split <;> simp
      | cons d b =>
        simp only [splitBytes?, byteSize_cons, List.cons_append, List.cons.injEq]
        split
        next hle =>
          simp only [Option.map_eq_some_iff, Prod.mk.injEq, Prod.exists, List.cons.injEq]
          constructor
          · rintro ⟨b', a', h, ⟨rfl, rfl⟩, rfl⟩
            obtain ⟨hr, hs⟩ := ih.mp h
            exact ⟨⟨rfl, hr⟩, by omega⟩
          · rintro ⟨⟨rfl, hr⟩, hs⟩
            exact ⟨b, after, ih.mpr ⟨hr, by omega⟩, ⟨rfl, rfl⟩, rfl⟩
        next hle =>
          simp only [reduceCtorEq, false_iff]
          rintro ⟨⟨rfl, _⟩, hs⟩
          omega

/-! ## Beginnings and ends -/

/-- What follows a leading `lead`; none if the text does not start with it. -/
def after? : (lead : Text) → Text → Option Text
  | [], t => some t
  | _ :: _, [] => none
  | l :: ls, c :: r => if l = c then after? ls r else none

theorem after?_eq_some {lead t rest : Text} : after? lead t = some rest ↔ t = lead ++ rest := by
  induction lead generalizing t with
  | nil => simp [after?, eq_comm]
  | cons l ls ih =>
    cases t with
    | nil => simp [after?]
    | cons c r =>
      by_cases h : l = c
      · simp [after?, h, ih]
      · simp [after?, h, Ne.symm h]

/-- What precedes a closing `tail`; none if the text does not end with it. -/
def before? (tail t : Text) : Option Text := (after? tail.reverse t.reverse).map List.reverse

theorem before?_eq_some {tail t rest : Text} : before? tail t = some rest ↔ t = rest ++ tail := by
  simp only [before?, Option.map_eq_some_iff, after?_eq_some]
  constructor
  · rintro ⟨r, h, rfl⟩
    have := congrArg List.reverse h
    simpa using this
  · rintro rfl
    exact ⟨rest.reverse, by simp, by simp⟩

def startsWith (lead t : Text) : Bool := (after? lead t).isSome

def endsWith (tail t : Text) : Bool := (before? tail t).isSome

/-! ## Numbers in texts -/

/-- The decimal digits of a number, without leading zeros. -/
def decimal (n : Nat) : Text := Nat.toDigits 10 n

/-- True if every character is one of the digits `0` to `9`; the empty text counts. -/
def isDigits (t : Text) : Bool := t.all Char.isDigit

end Text

end SnippetEngine
