-- Blank characters, and the two ways in which they delimit texts: trimming and words.
import SnippetEngine.Text.Split

namespace SnippetEngine.Text

/-- The characters with the Unicode property White_Space. -/
def isBlank (c : Char) : Bool :=
  let n := c.toNat
  (0x9 ≤ n && n ≤ 0xD) || n == 0x20 || n == 0x85 || n == 0xA0 || n == 0x1680 ||
    (0x2000 ≤ n && n ≤ 0x200A) || n == 0x2028 || n == 0x2029 || n == 0x202F || n == 0x205F ||
    n == 0x3000

/-- The text without its leading blanks. -/
def trimStart (t : Text) : Text := t.dropWhile isBlank

/-- The text without its trailing blanks. -/
def trimEnd (t : Text) : Text := (t.reverse.dropWhile isBlank).reverse

/-- The text without leading and trailing blanks. -/
def trim (t : Text) : Text := trimEnd (trimStart t)

/-- The maximal runs of characters that are not blank, in order. -/
def words (t : Text) : List Text := (pieces isBlank t).filter (!·.isEmpty)

end SnippetEngine.Text
