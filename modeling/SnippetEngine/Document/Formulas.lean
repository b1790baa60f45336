-- What formulas stand for in a document.
import SnippetEngine.Document.Basic
import SnippetEngine.FreeName
import SnippetEngine.Synthesis
import SnippetEngine.TypeName

namespace SnippetEngine.Document

open Text

def loopNames : List Text := ["i", "j", "k", "l", "m", "n"].map String.toList

/-! ## Names -/

/-- The names that a new name may not be: declared, the value of a variable, or handed out. -/
def namesInUse (d : Document) (scope : Bindings) : List Text :=
  d.declared.names ++ scope.values ++ d.gathered.reserved

/-- A free name, which is in use from now on. -/
def freeName (desired : Text) (scope : Bindings) : StateM Document Text := do
  let d ← get
  let name := FreeName.first (d.namesInUse scope) desired
  set { d with gathered := { d.gathered with reserved := d.gathered.reserved ++ [name] } }
  return name

/-- The first free loop variable. It is not reserved. Without one, a free name. -/
def loopName (scope : Bindings) : StateM Document Text := do
  let d ← get
  match loopNames.find? fun name => !(d.namesInUse scope).contains name with
  | some name => return name
  | none => freeName ['i'] scope

/-! ## Imports and helpers -/

def requestImport (name : Text) (d : Document) : Document :=
  if name.isEmpty || d.gathered.imports.contains name then d
  else { d with gathered := { d.gathered with imports := d.gathered.imports ++ [name] } }

/-- Lets texts go to a new helper of the effect. -/
def openHelper (effectId : Text) (d : Document) : Document :=
  { d with gathered := { d.gathered with
      inHelper := true
      helpers := d.gathered.helpers ++ [{ effectId, code := [] }] } }

def closeHelper (d : Document) : Document :=
  { d with gathered := { d.gathered with inHelper := false } }

def addToLast (text : Text) : List Helper → List Helper
  | [] => []
  | [h] => [{ h with code := h.code ++ text }]
  | h :: hs => h :: addToLast text hs

/-- Gives a text to the last helper while one is open, and to the output otherwise. -/
def emit (text : Text) : StateM Document Text := do
  let d ← get
  if d.gathered.inHelper then
    set { d with gathered := { d.gathered with helpers := addToLast text d.gathered.helpers } }
    return []
  return text

/-! ## Formulas -/

/-- A formula without arguments: a variable, or else one of the names known here. -/
def valueOf (site : Site) (scope : Bindings) (name : Text) : StateM Document Text := do
  match scope.value? name with
  | some value => return value
  | none =>
    if name = "cursor".toList then return (← get).config.cursorMarker
    else if name = "dollar".toList then return ['$']
    else if name = "iter".toList then loopName scope
    else if name = "id".toList then return site.owner.effect.id
    else if name = "snipType".toList then return site.application.effect.effect.minorType
    else if name = "helper".toList then
      modify (openHelper site.owner.effect.id)
      return []
    else if name = "endHelper".toList then
      modify closeHelper
      return []
    else return []

/-- A formula with arguments, of which the first counts. -/
def resultOf (site : Site) (scope : Bindings) (name argument : Text) :
    StateM Document Text := do
  if name = "import".toList then
    modify (requestImport argument)
    return []
  else if name = "elemType".toList then
    let subject := (scope.value? argument).getD argument
    return (((← get).declaredType? subject).bind TypeName.element?).getD []
  else if name = "snipType".toList then return site.application.effect.effect.minorType
  else if name = "freeName".toList then freeName argument scope
  else return []

/-- The text that a formula stands for, wherever that text goes. -/
def computed (site : Site) (scope : Bindings) (formula : Formula) : StateM Document Text :=
  match formula.arguments with
  | [] => valueOf site scope formula.name
  | argument :: _ => resultOf site scope formula.name (trim argument)

def evaluateFormula (site : Site) (scope : Bindings) (formula : Formula) :
    Session Document Text := do
  emit (← computed site scope formula)

def evaluateText (_ : Site) (_ : Bindings) (text : Text) : Session Document Text := emit text

end SnippetEngine.Document
