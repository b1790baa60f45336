-- The classes that code declares.
import SnippetEngine.Code.Identifier
import SnippetEngine.Text.Blank

namespace SnippetEngine.Code

open Text

/-- The identifiers at the start of the words behind the words `class`. -/
def classNamesOf : (words : List Text) → List Text
  | word :: next :: rest =>
    if word = "class".toList then
      let name := next.takeWhile isIdentifierChar
      if name.isEmpty then classNamesOf rest else name :: classNamesOf rest
    else classNamesOf (next :: rest)
  | _ => []

/-- The names of the classes that the code declares, in order. -/
def classNames (code : Text) : List Text := classNamesOf (words code)

/-- True if the code declares a class of that name in the line right behind a line that is, but
for blanks around it, the mark. -/
def hasMarkedClass (code mark name : Text) : Bool :=
  let trimmed := (lines code).map trim
  (trimmed.zip trimmed.tail).any fun (line, next) =>
    line == mark && (classNames next).contains name

end SnippetEngine.Code
