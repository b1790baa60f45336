-- A text document with a selection and the variables that are declared there. An evaluation
-- gathers imports, helper classes and reserved names. Applying a result writes them; the text
-- without any result, the base text, is kept beside it.
import SnippetEngine.Bindings
import SnippetEngine.Config

namespace SnippetEngine

/-- A range of bytes. Nothing is said of its order or of its ends being inside a document. -/
structure Selection where
  start : Nat
  stop : Nat
  deriving DecidableEq

/-- Code that an effect wants to stand in the document beside its text. -/
structure Helper where
  /-- The effect that declares the helper. -/
  effectId : Text
  code : Text
  deriving DecidableEq

/-- What an evaluation gathers beside its value. -/
structure Gathered where
  /-- The imports asked for, each one once. -/
  imports : List Text := []
  /-- The helpers, in the order in which they were opened. -/
  helpers : List Helper := []
  /-- The names handed out as free. -/
  reserved : List Text := []
  /-- True while texts go to the last helper. -/
  inHelper : Bool := false
  deriving DecidableEq

/-- A result in its document. -/
structure Applied where
  text : Text
  /-- The byte offset of the cursor. -/
  cursor : Nat
  deriving DecidableEq

structure Document where
  /-- The text without any result. -/
  base : Text
  config : Config := {}
  selection : Selection
  /-- The variables declared at the selection, with their types. -/
  declared : Bindings := []
  gathered : Gathered := {}
  /-- The text with the last result that was applied and not discarded. -/
  text : Text := base
  /-- The byte offset of the cursor in that text. -/
  cursor? : Option Nat := none
  /-- True if nothing is applied. -/
  isClean : Bool := true
  deriving DecidableEq

namespace Document

/-- A document with nothing declared and an empty selection at its end. -/
def ofText (text : Text) (config : Config) : Document :=
  { base := text, config, selection := ⟨text.byteSize, text.byteSize⟩ }

def compatibility (d : Document) : Compatibility := d.config.compatibility

def declaredType? (d : Document) (name : Text) : Option Text := d.declared.value? name

/-- Declares a variable; one that is declared gets the new type. -/
def declare (d : Document) (name type : Text) : Document :=
  { d with declared := d.declared.bind name type }

def select (d : Document) (selection : Selection) : Document := { d with selection }

/-- Forgets what evaluations gathered. -/
def forget (d : Document) : Document := { d with gathered := {} }

/-- Discards what was applied and what evaluations gathered. -/
def reset (d : Document) : Document :=
  { d.forget with text := d.base, cursor? := none, isClean := true }

/-- Shows a result in the place of the one before it. -/
def write (d : Document) (a : Applied) : Document :=
  { d with text := a.text, cursor? := some a.cursor, isClean := false }

/-- The text before and after the selection, if the selection lies in the base text. -/
def around? (d : Document) : Option (Text × Text) := do
  if d.selection.stop < d.selection.start then none
  let (before, rest) ← d.base.splitBytes? d.selection.start
  let (_, after) ← rest.splitBytes? (d.selection.stop - d.selection.start)
  return (before, after)

end Document

end SnippetEngine
