-- Applying a result: it takes the place of the selection, the cursor marker gives way to the
-- cursor, and the imports and helpers that were gathered find their place.
import SnippetEngine.Document.Imports
import SnippetEngine.Document.Placement
import SnippetEngine.Environment

namespace SnippetEngine.Document

open Text

def name : Text := "document".toList

/-- Fails for an effect that is written for another environment. -/
def checkTarget : Option Effect → Except Error Unit
  | none => .ok ()
  | some e =>
    if e.environmentName.isEmpty || e.environmentName == name then .ok ()
    else .error (.applyFailed (.otherEnvironment e.id e.environmentName))

/-- A snippet without its cursor markers, and the byte offset of the cursor in it: where the
first marker was, or the end. The empty marker marks nothing. -/
def takeMarkers (marker snippet : Text) : Text × Nat :=
  let inserted := replaceAll marker [] snippet
  let offset := if marker.isEmpty then none else offsetOf? marker snippet
  (inserted, offset.getD inserted.byteSize)

/-- The result in the place between `before` and `after`. Imports go behind the last import or
package line of the base text, but never behind the selection's start. -/
def insert (d : Document) (before after result : Text) : Applied :=
  let placement := d.placeHelpers (trim result)
  let (inserted, offset) := takeMarkers d.config.cursorMarker placement.snippet
  let head := before.take (Code.importHead d.base).length
  let imports := d.importBlock head (d.base.drop head.length)
  let body := head ++ imports ++ before.drop head.length ++ inserted ++ after
  { text := appendSections body placement.sections
    cursor := imports.byteSize + before.byteSize + offset }

/-- Applies a result, or leaves the document as it is. -/
def applyResult (result : Text) (effect : Option Effect) : Session Document Unit := do
  checkTarget effect
  let d ← get
  match d.around? with
  | none =>
    throw (.applyFailed
      (.invalidSelection d.selection.start d.selection.stop d.base.byteSize))
  | some (before, after) => set (d.write (d.insert before after result))

end SnippetEngine.Document
