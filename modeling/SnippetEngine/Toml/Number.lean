-- Numbers. Integers keep their value; of a fraction only its form and its size are of interest.
-- A number that has the form of one but no value is read nevertheless; it does harm only where
-- its value is asked for.
import SnippetEngine.Text.Search
import SnippetEngine.Text.Split
import SnippetEngine.Toml.Quoted
import SnippetEngine.Value

namespace SnippetEngine.Toml

/-! ## Digits -/

def isHexDigit (c : Char) : Bool := (hexDigit? c).isSome

/-- The text without its underscores, each of which has a digit on both sides. -/
def joined? (isDigit : Char → Bool) (t : Text) : Option Text :=
  let groups := Text.splitOn '_' t
  if groups.dropLast.all (·.getLast?.any isDigit) && groups.tail.all (·.head?.any isDigit) then
    some groups.flatten
  else none

/-- The digits of a text of digits, one at least, and underscores between them. -/
def digits? (t : Text) : Option Text := do
  let digits ← joined? Char.isDigit t
  if digits.isEmpty || !digits.all Char.isDigit then none else some digits

def valueOf (base : Nat) (digits : Text) : Nat :=
  digits.foldl (fun n c => base * n + (hexDigit? c).getD 0) 0

/-- The sign of a number, true for minus, and the text behind it. -/
def sign : Text → Bool × Text
  | '+' :: r => (false, r)
  | '-' :: r => (true, r)
  | t => (false, t)

def signedValue (minus : Bool) (amount : Nat) : Int := if minus then -(amount : Int) else amount

def hasLeadingZero : Text → Bool
  | '0' :: _ :: _ => true
  | _ => false

/-! ## Integers -/

/-- An integer, with a value if it has at most 128 bits, with or without a sign. -/
def sizedInteger : Int → Value
  | .ofNat n => if n < Nat.pow 2 128 then .integer (.ofNat n) else .unreadable
  | .negSucc n => if n < Nat.pow 2 127 then .integer (.negSucc n) else .unreadable

/-- An integer behind `0x`, `0o` or `0b`. It has no value without a digit. -/
def unsignedInteger? (base : Nat) (isDigit : Char → Bool) (t : Text) : Option Value := do
  let digits ← joined? isDigit t
  if !digits.all isDigit then none
  else if digits.isEmpty then some .unreadable
  else some (sizedInteger (valueOf base digits))

/-- True if behind the first underscore of a text, with digits only in front of it, there is no
space and nothing marks a fraction. -/
def hasIntegerTail (t : Text) : Bool :=
  match t.dropWhile Char.isDigit with
  | [] => true
  | c :: r => c == '_' && r.all fun d => d != ' ' && d != '.' && d != 'e' && d != 'E'

/-- A decimal integer. Behind an underscore the form asks only for hexadecimal digits next to the
underscores; what is no decimal number then has no value. -/
def decimalInteger? (t : Text) : Option Value := do
  let (minus, r) := sign t
  if hasLeadingZero r || !hasIntegerTail r then none
  let digits ← joined? isHexDigit r
  if digits.isEmpty then none
  else if digits.all Char.isDigit then some (sizedInteger (signedValue minus (valueOf 10 digits)))
  else some .unreadable

def integer? : Text → Option Value
  | '0' :: 'x' :: r => unsignedInteger? 16 isHexDigit r
  | '0' :: 'o' :: r => unsignedInteger? 8 (fun c => '0' ≤ c && c ≤ '7') r
  | '0' :: 'b' :: r => unsignedInteger? 2 (fun c => c == '0' || c == '1') r
  | t => decimalInteger? t

/-! ## Fractions -/

/-- True if a number written as digits and a power of ten is rounded to a finite double. -/
def isFinite (mantissa : Nat) (exponent : Int) : Bool :=
  let limit := Nat.pow 2 1024 - Nat.pow 2 970
  if mantissa = 0 then true
  else if 400 < exponent then false
  else if 0 ≤ exponent then mantissa * Nat.pow 10 exponent.toNat < limit
  else
    let digits := (Text.decimal mantissa).length
    -- With no more digits than this in front of the point the number is below the limit.
    if (digits : Int) + exponent ≤ 300 then true
    else mantissa < limit * Nat.pow 10 (-exponent).toNat

/-- The parts of a number in front of and behind the letter of its exponent. -/
def cutExponent (t : Text) : Text × Option Text :=
  match t.span fun c => c != 'e' && c != 'E' with
  | (before, _ :: after) => (before, some after)
  | (before, []) => (before, none)

def exponent? : Option Text → Option Int
  | none => some 0
  | some t =>
    let (minus, r) := sign t
    (digits? r).map fun ds => signedValue minus (valueOf 10 ds)

def wholeDigits? (t : Text) : Option Text := if hasLeadingZero t then none else digits? t

/-- The digits in front of and behind the point, which may be missing. -/
def mantissa? (t : Text) : Option (Text × Text) :=
  match Text.cutAtChar? '.' t with
  | some (whole, part) => do return (← wholeDigits? whole, ← digits? part)
  | none => do return (← wholeDigits? t, [])

/-- A decimal number with a point or an exponent. It has no value if it is too large for a
double. -/
def decimalFraction? (t : Text) : Option Value := do
  let (_, r) := sign t
  let (number, exponentText) := cutExponent r
  if exponentText.isNone && !number.contains '.' then none
  let (whole, part) ← mantissa? number
  let exponent ← exponent? exponentText
  if isFinite (valueOf 10 (whole ++ part)) (exponent - part.length) then some .scalar
  else some .unreadable

/-- A fraction: `inf`, `nan`, or a decimal number with a point or an exponent. -/
def fraction? (t : Text) : Option Value :=
  let (_, r) := sign t
  if r == "inf".toList || r == "nan".toList then some .scalar else decimalFraction? t

def number? (t : Text) : Option Value := (integer? t).or (fraction? t)

end SnippetEngine.Toml
