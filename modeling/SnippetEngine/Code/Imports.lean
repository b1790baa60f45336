-- The import and package lines of code.
import SnippetEngine.Text.Blank
import SnippetEngine.Text.Search

namespace SnippetEngine.Code

open Text

def isImportLine (line : Text) : Bool := startsWith "import ".toList (trimStart line)

def isPackageLine (line : Text) : Bool := startsWith "package ".toList (trimStart line)

/-- The name that a line imports: what stands between `import` and the semicolon. -/
def importedName? (line : Text) : Option Text := do
  let rest ← after? "import ".toList (trim line)
  let name ← before? [';'] rest
  return trim name

/-- True if a line of the code imports the name. -/
def hasImport (code name : Text) : Bool := (lines code).any fun l => importedName? l == some name

/-- The code up to the end of its last import or package line; empty without one. -/
def importHead (code : Text) : Text :=
  ((linesWithEnds code).reverse.dropWhile
    fun line => !(isImportLine line || isPackageLine line)).reverse.flatten

/-- The line that imports a name. -/
def importLine (name : Text) : Text := "import ".toList ++ name ++ [';', '\n']

end SnippetEngine.Code
