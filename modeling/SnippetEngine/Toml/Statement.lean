-- The statements of a TOML text: pairs of a key and a value, and the headers of tables.
import SnippetEngine.Toml.Moment
import SnippetEngine.Toml.Table

namespace SnippetEngine.Toml

/-- The most keys in a path, and the most brackets around each other. -/
def maxDepth : Nat := 80

/-! ## Keys -/

def isBareKeyChar (c : Char) : Bool := c.isAlphanum || c == '_' || c == '-'

/-- A key without dots, bare or in quotes. -/
def simpleKey : Reader Text := do
  if (← Reader.sees ['"']) || (← Reader.sees ['\'']) then quotedLine
  else
    let key ← Reader.run isBareKeyChar
    if key.isEmpty then failure
    return key

/-- At most `most` keys with dots between them; blanks may stand around each one. -/
def keyPath : (most : Nat) → Reader (List Text)
  | 0 => failure
  | most + 1 => do
    blanks
    let key ← simpleKey
    blanks
    if ← Reader.skip ['.'] then
      let rest ← keyPath most
      return key :: rest
    return [key]

def key : Reader (List Text) := keyPath maxDepth

/-! ## Values -/

/-- The characters that end a word of a value without brackets. -/
def delimiters : Text := "=,[]\x7b\x7d \t#\r\n".toList

def isWordChar (c : Char) : Bool := !delimiters.contains c

/-- True if a word without quotes in front stands here. -/
def startsWord : Text → Bool
  | [] => false
  | c :: _ => isWordChar c && c != '"' && c != '\''

/-- Reads at most `most` words with the blanks between them. -/
def wordsTo : (most : Nat) → Reader Text
  | 0 => failure
  | most + 1 => do
    let word ← Reader.run isWordChar
    let gap ← Reader.run isBlank
    if gap.isEmpty || !startsWord (← get) then return word
    let rest ← wordsTo most
    return word ++ gap ++ rest

/-- The value that a text without quotes and brackets writes. -/
def bareValue? (t : Text) : Option Value :=
  if t == "true".toList then some (.flag true)
  else if t == "false".toList then some (.flag false)
  else if isMoment t then some .scalar
  else number? t

/-- Reads a value without quotes and brackets. All words that stand here belong to it; each takes
a character, so there are no more than characters. -/
def bareValue : Reader Value := fun t =>
  match wordsTo (t.length + 1) t with
  | none => none
  | some (written, rest) => (bareValue? written).map (·, rest)

/-- Reads a value without brackets. -/
def scalarValue : Reader Value := do
  if (← Reader.sees ['"']) || (← Reader.sees ['\'']) then return .text (← quoted)
  bareValue

/-- A key, an equals sign and a value; `space` may stand around the equals sign. -/
def pair (space : Reader Unit) (value : Reader Value) : Reader (List Text × Value) := do
  let path ← key
  space
  Reader.expect ['=']
  space
  let v ← value
  return (path, v)

/-- The table of the pairs between braces. -/
def inlineTable (value : Reader Value) : Reader Value := do
  let pairs ← itemsTo (pair filler value) '}'
  let entries ← Table.ofPairs pairs
  return .table (Table.toValues entries)

/-- Reads a value with at most `depth` brackets around each other. -/
def value : (depth : Nat) → Reader Value
  | 0 => scalarValue
  | depth + 1 => do
    if ← Reader.skip ['['] then return .list (← itemsTo (value depth) ']')
    if ← Reader.skip ['\x7b'] then inlineTable (value depth)
    else scalarValue

/-! ## Statements -/

inductive Statement
  | pair (path : List Text) (value : Value)
  | table (path : List Text)
  /-- A further table of an array of tables. -/
  | element (path : List Text)

def statement : Reader Statement := do
  if ← Reader.skip ['[', '['] then
    let path ← key
    Reader.expect [']', ']']
    return .element path
  if ← Reader.skip ['['] then
    let path ← key
    Reader.expect [']']
    return .table path
  let (path, v) ← pair blanks (value maxDepth)
  return .pair path v

/-- The statements up to the end of the text, each one on a line of its own. -/
def statementsTo : (most : Nat) → Reader (List Statement)
  | 0 => failure
  | most + 1 => do
    filler
    if ← Reader.atEnd then return []
    let first ← statement
    lineEnd
    let rest ← statementsTo most
    return first :: rest

/-- The statements of a text. A byte order mark in front of them does not count. -/
def statements? (t : Text) : Option (List Statement) :=
  let t := (Text.after? ['\uFEFF'] t).getD t
  (statementsTo (t.length + 1) t).map Prod.fst

end SnippetEngine.Toml
