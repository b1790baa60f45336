-- Reading a TOML text from its start. A reader takes what it reads off the text, or fails.
import SnippetEngine.Text.Basic

namespace SnippetEngine.Toml

abbrev Reader := StateT Text Option

namespace Reader

/-- Takes the given characters. -/
def expect (lead : Text) : Reader Unit := fun t => (Text.after? lead t).map ((), ·)

/-- Takes the given characters if they stand here, and tells whether they did. -/
def skip (lead : Text) : Reader Bool := fun t =>
  match Text.after? lead t with
  | some rest => some (true, rest)
  | none => some (false, t)

/-- The characters up to the first that is not of the kind. -/
def run (kind : Char → Bool) : Reader Text := fun t => some (t.takeWhile kind, t.dropWhile kind)

/-- Tells whether the characters stand here, and takes nothing. -/
def sees (lead : Text) : Reader Bool := fun t => some (Text.startsWith lead t, t)

def atEnd : Reader Bool := fun t => some (t.isEmpty, t)

end Reader

/-! ## Blanks -/

def isBlank (c : Char) : Bool := c == ' ' || c == '\t'

/-- A control character that no text, comment or key may hold as it is. -/
def isControl (c : Char) : Bool := (c.toNat < 0x20 && c != '\t') || c.toNat == 0x7F

/-- The text behind the spaces and tabs. -/
def blanks : Reader Unit := fun t => some ((), t.dropWhile isBlank)

/-- The text behind the blanks, line ends and comments. Fails at a comment with a control
character. -/
def dropFiller : (inComment : Bool) → Text → Option Text
  | _, [] => some []
  | _, '\n' :: r => dropFiller false r
  | _, '\r' :: '\n' :: r => dropFiller false r
  | true, c :: r => if isControl c then none else dropFiller true r
  | false, '#' :: r => dropFiller true r
  | false, c :: r => if isBlank c then dropFiller false r else some (c :: r)

def filler : Reader Unit := fun t => (dropFiller false t).map ((), ·)

/-- The text behind the end of the line, or the end of the text. -/
def dropLineEnd : (inComment : Bool) → Text → Option Text
  | _, [] => some []
  | _, '\n' :: r => some r
  | _, '\r' :: '\n' :: r => some r
  | true, c :: r => if isControl c then none else dropLineEnd true r
  | false, '#' :: r => dropLineEnd true r
  | false, c :: r => if isBlank c then dropLineEnd false r else none

def lineEnd : Reader Unit := fun t => (dropLineEnd false t).map ((), ·)

/-! ## Lists -/

/-- Items with commas between them, up to the closing character. Blanks, line ends and comments
may stand around each item, and a comma may follow the last. -/
def itemsUntil {α : Type} (item : Reader α) (close : Char) : (most : Nat) → Reader (List α)
  | 0 => failure
  | most + 1 => do
    filler
    if ← Reader.skip [close] then return []
    let first ← item
    filler
    if ← Reader.skip [','] then
      let rest ← itemsUntil item close most
      return first :: rest
    Reader.expect [close]
    return [first]

/-- Items as in `itemsUntil`. Each one takes a character, so there are no more than characters. -/
def itemsTo {α : Type} (item : Reader α) (close : Char) : Reader (List α) := fun t =>
  itemsUntil item close (t.length + 1) t

end SnippetEngine.Toml
