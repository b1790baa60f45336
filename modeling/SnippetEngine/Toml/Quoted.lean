-- Texts in quotes: basic ones, with escapes, and literal ones, without. In three quotes a text
-- may go over several lines; a line end right behind the opening quotes does not count.
import SnippetEngine.Toml.Reader

namespace SnippetEngine.Toml

/-! ## Escapes -/

def hexDigit? (c : Char) : Option Nat :=
  if '0' ≤ c ∧ c ≤ '9' then some (c.toNat - '0'.toNat)
  else if 'a' ≤ c ∧ c ≤ 'f' then some (c.toNat - 'a'.toNat + 10)
  else if 'A' ≤ c ∧ c ≤ 'F' then some (c.toNat - 'A'.toNat + 10)
  else none

/-- The character whose code point the hexadecimal digits write. None if a character is no digit
or the number is no code point of a character. -/
def charOfHex? (digits : Text) : Option Char := do
  let values ← digits.mapM hexDigit?
  let n := values.foldl (fun n d => 16 * n + d) 0
  if n.isValidChar then some (Char.ofNat n) else none

/-- The character of `width` hexadecimal digits. -/
def hexEscape (width : Nat) (t : Text) : Option (Text × Text) :=
  if t.length < width then none
  else (charOfHex? (t.take width)).map fun c => ([c], t.drop width)

/-- What a backslash and the characters behind it stand for. -/
def escape : Text → Option (Text × Text)
  | 'b' :: r => some (['\x08'], r)
  | 't' :: r => some (['\t'], r)
  | 'n' :: r => some (['\n'], r)
  | 'f' :: r => some (['\x0c'], r)
  | 'r' :: r => some (['\r'], r)
  | 'e' :: r => some (['\x1b'], r)
  | '"' :: r => some (['"'], r)
  | '\\' :: r => some (['\\'], r)
  | 'x' :: r => hexEscape 2 r
  | 'u' :: r => hexEscape 4 r
  | 'U' :: r => hexEscape 8 r
  | _ => none

/-- The text without its leading blanks and line ends. -/
def dropLines : Text → Text
  | [] => []
  | '\r' :: '\n' :: r => dropLines r
  | c :: r => if isBlank c || c == '\n' then dropLines r else c :: r

/-- A backslash at the end of a line stands for nothing, and so do the blanks and line ends
behind it. -/
def lineJoin (t : Text) : Option (Text × Text) :=
  match t.dropWhile isBlank with
  | '\n' :: r => some ([], dropLines r)
  | '\r' :: '\n' :: r => some ([], dropLines r)
  | _ => none

/-! ## Parts

What the first characters of a quoted text stand for, and the text behind them. -/

def literalPart : Text → Option (Text × Text)
  | [] => none
  | c :: r => if isControl c then none else some ([c], r)

def basicPart : Text → Option (Text × Text)
  | '\\' :: r => escape r
  | t => literalPart t

def literalLinesPart : Text → Option (Text × Text)
  | '\n' :: r => some (['\n'], r)
  | '\r' :: '\n' :: r => some (['\r', '\n'], r)
  | t => literalPart t

def basicLinesPart : Text → Option (Text × Text)
  | '\\' :: r => (lineJoin r).or (escape r)
  | t => literalLinesPart t

/-! ## Ends -/

/-- A single closing quote. -/
def closingQuote (quote : Char) (t : Text) : Option (Text × Text) :=
  (Text.after? [quote] t).map ([], ·)

/-- Three closing quotes. Up to two further quotes stand in front of them and belong to the
text. -/
def closingQuotes (quote : Char) (t : Text) : Option (Text × Text) :=
  let quotes := min (t.takeWhile (· == quote)).length 5
  if quotes < 3 then none else some (List.replicate (quotes - 3) quote, t.drop quotes)

/-- The parts up to the end. -/
def partsTo (close part : Text → Option (Text × Text)) : (most : Nat) → Text → Option (Text × Text)
  | 0, _ => none
  | most + 1, t =>
    match close t with
    | some last => some last
    | none => do
      let (first, r) ← part t
      let (rest, r) ← partsTo close part most r
      return (first ++ rest, r)

/-- The text behind a line end, if there is one here. -/
def dropFirstLineEnd : Text → Text
  | '\n' :: r => r
  | '\r' :: '\n' :: r => r
  | t => t

/-- Reads a text in quotes. Each part takes a character, so there are no more than characters. -/
def quoted : Reader Text := fun t =>
  match t with
  | '"' :: '"' :: '"' :: r =>
    partsTo (closingQuotes '"') basicLinesPart (r.length + 1) (dropFirstLineEnd r)
  | '\'' :: '\'' :: '\'' :: r =>
    partsTo (closingQuotes '\'') literalLinesPart (r.length + 1) (dropFirstLineEnd r)
  | '"' :: r => partsTo (closingQuote '"') basicPart (r.length + 1) r
  | '\'' :: r => partsTo (closingQuote '\'') literalPart (r.length + 1) r
  | _ => none

/-- Reads a text in quotes that stays in its line. -/
def quotedLine : Reader Text := fun t =>
  match t with
  | '"' :: '"' :: '"' :: _ => none
  | '\'' :: '\'' :: '\'' :: _ => none
  | _ => quoted t

end SnippetEngine.Toml
