-- Plain data, and how effects and settings are read from it. A record is a table; keys that
-- it does not know are ignored if what they hold can be read, and a field of the wrong kind fails
-- the whole record. A list stands for the record whose fields are its items, in order; nobody
-- looks at the items behind them.
import SnippetEngine.Config
import SnippetEngine.Effect

namespace SnippetEngine

inductive Value
  | null
  | flag (value : Bool)
  | integer (value : Int)
  /-- A fraction, a date or a time: data that no field takes. -/
  | scalar
  /-- A number that has no value. Whatever looks at it fails. -/
  | unreadable
  | text (value : Text)
  | list (items : List Value)
  | table (entries : List (Text × Value))
  deriving Inhabited

namespace Value

/-! ## Kinds -/

def text? : Value → Option Text
  | text t => some t
  | _ => none

def texts? : Value → Option (List Text)
  | list items => items.mapM text?
  | _ => none

/-- A text, or none if the value is null. -/
def textOrNull? : Value → Option (Option Text)
  | null => some none
  | text t => some (some t)
  | _ => none

/-- A natural number of at most 64 bits. -/
def word? : Value → Option Nat
  | integer (.ofNat n) => if n < 0x10000000000000000 then some n else none
  | _ => none

/-- A list whose items are all read by `item`. -/
def listOf? {α : Type} (item : Value → Option α) : Value → Option (List α)
  | list items => items.mapM item
  | _ => none

/-- A table whose values are all read by `item`. -/
def tableOf? {α : Type} (item : Value → Option α) : Value → Option (List (Text × α))
  | table entries => entries.mapM fun (key, value) => (item value).map (key, ·)
  | _ => none

/-! ## Reading without interest -/

mutual

/-- True if everything in the data has a value. -/
def isReadable : Value → Bool
  | unreadable => false
  | list items => areReadable items
  | table entries => holdReadable entries
  | _ => true

def areReadable : List Value → Bool
  | [] => true
  | v :: vs => v.isReadable && areReadable vs

def holdReadable : List (Text × Value) → Bool
  | [] => true
  | (_, v) :: rest => v.isReadable && holdReadable rest

end

/-! ## Fields of records -/

/-- The value of a key. -/
def lookup? (entries : List (Text × Value)) (key : Text) : Option Value :=
  (entries.find? (·.1 == key)).map Prod.snd

/-- The value of the field `key`, which is the field number `place` of its record. -/
def field? (record : Value) (place : Nat) (key : String) : Option Value :=
  match record with
  | table entries => lookup? entries key.toList
  | list items => items[place]?
  | _ => none

/-- Reads a field, or gives its default if the field is missing. -/
def fieldOr {α : Type} (record : Value) (place : Nat) (key : String) (read : Value → Option α)
    (absent : α) : Option α :=
  match record.field? place key with
  | none => some absent
  | some value => read value

/-- True for a record whose other keys than the fields hold what can be read. -/
def isRecord (fields : List String) : Value → Bool
  | table entries => holdReadable (entries.filter fun (key, _) => !fields.any (·.toList == key))
  | list _ => true
  | _ => false

end Value

/-! ## Records -/

def Parameter.ofValue? (v : Value) : Option Parameter := do
  if !v.isRecord ["name", "major_type", "minor_type", "fixed_value"] then none
  let name ← (← v.field? 0 "name").text?
  let majorType ← v.fieldOr 1 "major_type" Value.text? []
  let minorType ← v.fieldOr 2 "minor_type" Value.text? []
  let fixedValue ← v.fieldOr 3 "fixed_value" Value.textOrNull? none
  return { name, majorType, minorType, fixedValue }

def Effect.ofValue? (v : Value) : Option Effect := do
  if !v.isRecord ["id", "patterns", "parameters", "major_type", "minor_type", "code", "summary",
    "environment_name"] then none
  let id ← (← v.field? 0 "id").text?
  let patterns ← v.fieldOr 1 "patterns" Value.texts? []
  let parameters ← v.fieldOr 2 "parameters" (Value.listOf? Parameter.ofValue?) []
  let majorType ← v.fieldOr 3 "major_type" Value.text? []
  let minorType ← v.fieldOr 4 "minor_type" Value.text? []
  let code ← v.fieldOr 5 "code" Value.text? []
  let summary ← v.fieldOr 6 "summary" Value.text? []
  let environmentName ← v.fieldOr 7 "environment_name" Value.text? []
  return { id, patterns, parameters, majorType, minorType, code, summary, environmentName }

def Config.ofValue? (v : Value) : Option Config := do
  if !v.isRecord ["max_argument_completions", "cursor_marker", "compatible"] then none
  let standard : Config := {}
  let maxArgumentCompletions ←
    v.fieldOr 0 "max_argument_completions" Value.word? standard.maxArgumentCompletions
  let cursorMarker ← v.fieldOr 1 "cursor_marker" Value.text? standard.cursorMarker
  let compatible ← v.fieldOr 2 "compatible" (Value.tableOf? Value.texts?) standard.compatible
  return { maxArgumentCompletions, cursorMarker, compatible }

end SnippetEngine
