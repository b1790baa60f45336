-- Effects: parameterized code templates, and the ways in which an author edits one.
import SnippetEngine.Parameter

namespace SnippetEngine

structure Effect where
  id : Text
  /-- The search patterns that lead to this effect. -/
  patterns : List Text := []
  /-- The parameters, in the order of the matches that are bound to them. -/
  parameters : List Parameter := []
  majorType : Text := []
  minorType : Text := []
  /-- The template. -/
  code : Text := []
  summary : Text := []
  /-- The environment that the effect is written for; empty for any. -/
  environmentName : Text := []
  deriving DecidableEq

namespace Effect

/-- The major and the minor type with a colon between them, or the major type alone. -/
def fullType (e : Effect) : Text :=
  if e.minorType.isEmpty then e.majorType else e.majorType ++ ':' :: e.minorType

/-- Equality by value, where a parameter counts by its signature. -/
def sameValue (e f : Effect) : Bool :=
  { e with parameters := [] } == { f with parameters := [] } &&
    e.parameters.map Parameter.signature == f.parameters.map Parameter.signature

/-! ## Looking things up -/

def pattern? (e : Effect) (index : Nat) : Option Text := e.patterns[index]?

def parameter? (e : Effect) (index : Nat) : Option Parameter := e.parameters[index]?

/-- The place of the first parameter of that name. -/
def parameterIndex? (e : Effect) (name : Text) : Option Nat :=
  e.parameters.findIdx? (·.name == name)

/-- The first parameter of that name. -/
def parameterNamed? (e : Effect) (name : Text) : Option Parameter :=
  e.parameters.find? (·.name == name)

/-! ## Editing -/

def addPattern (e : Effect) (pattern : Text) : Effect :=
  { e with patterns := e.patterns ++ [pattern] }

def removePattern (e : Effect) (index : Nat) : Effect :=
  { e with patterns := e.patterns.eraseIdx index }

def addParameter (e : Effect) (p : Parameter) : Effect :=
  { e with parameters := e.parameters ++ [p] }

def removeParameter (e : Effect) (index : Nat) : Effect :=
  { e with parameters := e.parameters.eraseIdx index }

/-- Removes the first parameter of that name. -/
def removeParameterNamed (e : Effect) (name : Text) : Effect :=
  { e with parameters := e.parameters.eraseP (·.name == name) }

/-- Takes out a parameter, gives it a new name and new types, and puts it at the end. The second
part of the answer is the effect after it; without such a parameter nothing changes. -/
def retype (e : Effect) (index : Nat) (name majorType minorType : Text) :
    Option Parameter × Effect :=
  match e.parameter? index with
  | none => (none, e)
  | some p =>
    let retyped := { p with name, majorType, minorType }
    (some retyped, (e.removeParameter index).addParameter retyped)

def clearParameters (e : Effect) : Effect := { e with parameters := [] }

end Effect

/-- An effect as it is shared by matches. Two shared effects are the same one exactly if they
agree in everything, their place in the catalog included: equal effects at different places
are told apart. -/
structure SharedEffect where
  slot : Nat
  effect : Effect
  deriving DecidableEq

end SnippetEngine
