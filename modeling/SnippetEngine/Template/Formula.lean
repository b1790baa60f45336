-- Formulas: `name`, `name(a,b)`, `variable:name` or `variable:name(a,b)`. Blanks around the
-- names are ignored; the arguments are kept as they are written.
import SnippetEngine.Text.Blank
import SnippetEngine.Text.Letter
import SnippetEngine.Text.Search

namespace SnippetEngine

/-- A call that is evaluated while a template is rendered. -/
structure Formula where
  name : Text
  arguments : List Text
  /-- The variable that keeps the value for the formulas behind this one. -/
  capture : Option Text
  deriving DecidableEq

/-- Why a formula body is not well formed. -/
inductive FormulaFault
  | empty
  | invalidName
  | invalidVariableName
  | unclosedArguments
  | nestedParentheses
  | trailingText
  deriving DecidableEq

def FormulaFault.message : FormulaFault → Text
  | empty => "the formula is empty".toList
  | invalidName => "the formula name is not a valid identifier".toList
  | invalidVariableName => "the captured variable name is not a valid identifier".toList
  | unclosedArguments => "the argument list is missing a closing `)`".toList
  | nestedParentheses => "nested parentheses are not supported in argument lists".toList
  | trailingText => "unexpected text after the argument list".toList

namespace Formula

open Text

/-- Splits off a capture: a `:` before any parenthesis ends the name of a variable. -/
def splitCapture (body : Text) : Except FormulaFault (Option Text × Text) :=
  match cutAtChar? ':' body with
  | none => .ok (none, body)
  | some (before, after) =>
    if before.contains '(' then .ok (none, body)
    else if isIdentifier (trim before) then .ok (some (trim before), after)
    else .error .invalidVariableName

/-- Splits a call into its name and its arguments. Empty parentheses hold no argument. -/
def splitArguments (call : Text) : Except FormulaFault (Text × List Text) :=
  match cutAtChar? '(' call with
  | none => .ok (trim call, [])
  | some (name, tail) =>
    match before? [')'] tail with
    | none => .error (if tail.contains ')' then .trailingText else .unclosedArguments)
    | some inner =>
      if inner.contains '(' then .error .nestedParentheses
      else if inner.contains ')' then .error .trailingText
      else .ok (trim name, if inner.isEmpty then [] else splitOn ',' inner)

/-- Reads the body of a formula, blanks around it ignored. -/
def parse (body : Text) : Except FormulaFault Formula := do
  if (trim body).isEmpty then throw .empty
  let (capture, call) ← splitCapture (trim body)
  let (name, arguments) ← splitArguments call
  if isIdentifier name then return ⟨name, arguments, capture⟩ else throw .invalidName

end Formula

end SnippetEngine
