-- What a document knows of types: which nested matches are valid, which texts complete an
-- argument, and what a token of a query stands for.
import SnippetEngine.Document.Basic
import SnippetEngine.Environment

namespace SnippetEngine.Document

open Text

/-! ## Nested matches -/

def expression : Text := "expr".toList

/-- True if a match may be bound to a parameter: an effect bound to an expression of some type
has to produce a type that fits. -/
def fits (table : Compatibility) (parameter : Option Parameter) : Shape → Bool
  | .argument _ _ => true
  | .application _ a _ =>
    match parameter with
    | none => true
    | some p =>
      p.majorType != expression || p.minorType.isEmpty ||
        (!a.effect.effect.minorType.isEmpty &&
          table.isCompatible p.minorType a.effect.effect.minorType)

mutual

/-- True if every match that is bound to a parameter may be. -/
def isValid (table : Compatibility) : Shape → Bool
  | .argument _ _ => true
  | .application _ a children => areValid table a.effect.effect.parameters children

def areValid (table : Compatibility) : List Parameter → List Shape → Bool
  | _, [] => true
  | ps, s :: ss => isValid table s && fits table ps.head? s && areValid table ps.tail ss

end

def testMatch (d : Document) (t : MatchTree) (n : NodeId) : Except Error Bool :=
  isValid d.compatibility <$> t.shape n

/-! ## Arguments -/

/-- True if the text, taken literally, is a value of the type. -/
def isLiteral (type text : Text) : Bool :=
  if TypeName.isNumeric type || type == TypeName.anyNumber then isDigits text
  else if type == "String".toList then startsWith ['"'] text
  else if type.isEmpty then isDigits text || startsWith ['"'] text
  else if type == TypeName.newIdentifier then !isDigits text
  else false

/-- The declared names that the text may become, as many as the settings allow. -/
def namesFor (d : Document) (type text : Text) : List Text :=
  ((d.declared.filter fun (name, declaredType) =>
    startsWith text name && d.compatibility.isCompatible type declaredType).map Prod.fst).take
      d.config.maxArgumentCompletions

/-- The text itself, where it may stand as a literal. -/
def literalFor (d : Document) (type text : Text) : List Text :=
  if !d.declared.binds text && !endsWith ['.'] text && isLiteral type text then [text] else []

/-- The texts that an expression argument may become, the shorter ones first. -/
def candidates (d : Document) (type text : Text) : List Text :=
  (d.namesFor type text ++ d.literalFor type text).mergeSort fun a b => a.byteSize ≤ b.byteSize

/-- The completions of an argument. The last one is empty. -/
def completionsOf (d : Document) (a : Argument) : List Text :=
  match a.text, a.parameter with
  | some text, some p =>
    if text.isEmpty || p.majorType != expression then [[]]
    else (d.candidates p.minorType text).filter (!·.isEmpty) ++ [[]]
  | _, _ => [[]]

def completions (t : MatchTree) (n : NodeId) : Session Document (List Text) := do
  let d ← get
  match ← t.argument? n with
  | none => return [[]]
  | some a => return d.completionsOf a

/-! ## Queries -/

/-- The type of a token, if it were an expression. -/
def tokenType (d : Document) (token : Text) : Text :=
  if startsWith ['"'] token then "String".toList
  else if !token.isEmpty && isDigits token then "int".toList
  else (d.declaredType? token).getD []

def interpretToken (token : Text) : StateM Document Text := do
  return expression ++ ':' :: (← get).tokenType token

end SnippetEngine.Document
