-- Dates and times. Only their form and the ranges of their numbers are of interest.
import SnippetEngine.Toml.Number

namespace SnippetEngine.Toml

/-- Reads a number of a fixed count of digits between two bounds. -/
def boundedNumber (count least most : Nat) : Reader Nat := fun t =>
  let digits := t.take count
  let n := valueOf 10 digits
  if digits.length = count ∧ digits.all Char.isDigit ∧ least ≤ n ∧ n ≤ most then
    some (n, t.drop count)
  else none

def isLeapYear (year : Nat) : Bool := year % 4 == 0 && (year % 100 != 0 || year % 400 == 0)

def daysIn (year month : Nat) : Nat :=
  if month = 2 then (if isLeapYear year then 29 else 28)
  else if month = 4 ∨ month = 6 ∨ month = 9 ∨ month = 11 then 30
  else 31

def date : Reader Unit := do
  let year ← boundedNumber 4 0 9999
  Reader.expect ['-']
  let month ← boundedNumber 2 1 12
  Reader.expect ['-']
  let _ ← boundedNumber 2 1 (daysIn year month)

/-- A time of day. The seconds may be missing, and a leap second is allowed. -/
def timeOfDay : Reader Unit := do
  let _ ← boundedNumber 2 0 23
  Reader.expect [':']
  let _ ← boundedNumber 2 0 59
  if ← Reader.skip [':'] then
    let _ ← boundedNumber 2 0 60
    if ← Reader.skip ['.'] then
      if (← Reader.run Char.isDigit).isEmpty then failure

/-- The distance from universal time, which may be missing. -/
def offset : Reader Unit := do
  if ← Reader.atEnd then return
  if ← Reader.skip ['Z'] then return
  if ← Reader.skip ['z'] then return
  if !(← Reader.skip ['+']) then Reader.expect ['-']
  let _ ← boundedNumber 2 0 23
  Reader.expect [':']
  let _ ← boundedNumber 2 0 59

def isSeparator (c : Char) : Bool := c == 'T' || c == 't' || c == ' '

/-- A date, a date and a time with or without an offset, or a time. -/
def moment : Reader Unit := fun t =>
  match date t with
  | none => timeOfDay t
  | some (_, []) => some ((), [])
  | some (_, c :: r) => if isSeparator c then (do timeOfDay; offset) r else none

/-- True if the whole text is a date or a time. -/
def isMoment (t : Text) : Bool :=
  match moment t with
  | some (_, []) => true
  | _ => false

end SnippetEngine.Toml
