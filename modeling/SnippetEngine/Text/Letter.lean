-- Letters and numbers of all scripts, and the identifiers made of them.
import SnippetEngine.Text.Basic
import SnippetEngine.Text.Alphabetic
import SnippetEngine.Text.Numeric

namespace SnippetEngine.Text

/-- True if the code point lies in one of the closed ranges. -/
def inRanges (ranges : List (Nat × Nat)) (n : Nat) : Bool :=
  ranges.any fun (first, last) => first ≤ n && n ≤ last

/-- The characters with the Unicode property Alphabetic. In ASCII these are the letters. -/
def isAlphabetic (c : Char) : Bool :=
  if c.toNat < 0x80 then c.isAlpha else inRanges alphabeticRanges c.toNat

/-- The characters of the Unicode number categories. In ASCII these are the digits. -/
def isNumeric (c : Char) : Bool :=
  if c.toNat < 0x80 then c.isDigit else inRanges numericRanges c.toNat

def isAlphanumeric (c : Char) : Bool := isAlphabetic c || isNumeric c

/-- A name of a formula or variable: a letter or `_`, then letters, numbers and `_`. -/
def isIdentifier : Text → Bool
  | [] => false
  | c :: r => (isAlphabetic c || c == '_') && r.all fun d => isAlphanumeric d || d == '_'

end SnippetEngine.Text
