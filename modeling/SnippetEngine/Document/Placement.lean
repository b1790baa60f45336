-- Helper classes on their way into a document: how they are marked, named and laid out.
import SnippetEngine.Code.Classes
import SnippetEngine.Document.Basic
import SnippetEngine.FreeName

namespace SnippetEngine

open Text

namespace Helper

/-- The line in front of a helper that says which effect it is from. -/
def tagLine (effectId : Text) : Text := "// Snippet ID: ".toList ++ effectId

/-- True if a class of that name stands behind a tag line of the effect. -/
def isTaggedClass (text effectId name : Text) : Bool :=
  Code.hasMarkedClass text (tagLine effectId) name

/-- The code of a helper, trimmed and with its classes open to the whole file. -/
def body (h : Helper) : Text :=
  replaceAll "private class".toList "class".toList
    (replaceAll "public class".toList "class".toList (trim h.code))

/-- The class name for a helper of an effect: the first candidate that names no class yet. None if
the search meets a class of the base text that is tagged with the effect. -/
def className? (base effectId : Text) (taken : List Text) (desired : Text) : Option Text :=
  let existing := Code.classNames base
  FreeName.search (fun name => existing.contains name && isTaggedClass base effectId name)
    (existing ++ taken) desired 1

end Helper

/-! ## Placing helpers one after another -/

/-- The snippet that refers to the helpers, the class names that they took, and the sections that
they become. -/
structure Placement where
  snippet : Text
  taken : List Text := []
  sections : List Text := []

namespace Placement

def append (p : Placement) (effectId code : Text) : Placement :=
  { p with sections := p.sections ++ [Helper.tagLine effectId ++ '\n' :: code] }

/-- Takes the name for a class of the snippet that was written with another one. -/
def take (p : Placement) (desired name : Text) : Placement :=
  { p with taken := p.taken ++ [name], snippet := Code.rename desired name p.snippet }

/-- Places a helper. It is dropped if it is blank, and skipped if the base text has it already.
Its first class gets a free name, in its code and in the snippet. -/
def place (base : Text) (p : Placement) (h : Helper) : Placement :=
  if h.body.isEmpty then p else
    match (Code.classNames h.body).head? with
    | none => p.append h.effectId h.body
    | some desired =>
      match Helper.className? base h.effectId p.taken desired with
      | none => p
      | some name => (p.take desired name).append h.effectId (Code.rename desired name h.body)

end Placement

namespace Document

def placeHelpers (d : Document) (snippet : Text) : Placement :=
  d.gathered.helpers.foldl (Placement.place d.base) { snippet }

/-- The text with a section behind it, set apart by a blank line. -/
def appendSection (endsLine : Bool) (text part : Text) : Text :=
  text ++ (if text.isEmpty then [] else if endsLine then ['\n'] else ['\n', '\n']) ++ part ++
    (if endsLine then ['\n'] else [])

/-- The text with the sections behind it. If the text ends with a line end, so do they. -/
def appendSections (text : Text) (sections : List Text) : Text :=
  sections.foldl (appendSection (endsWith ['\n'] text)) text

end Document

end SnippetEngine
