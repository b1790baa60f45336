-- The import lines that a document gets.
import SnippetEngine.Code.Imports
import SnippetEngine.Document.Basic

namespace SnippetEngine.Document

open Text

/-- The imports asked for that the base text lacks. -/
def missingImports (d : Document) : List Text :=
  d.gathered.imports.filter fun name => !Code.hasImport d.base name

/-- The lines for the missing imports, laid out to stand between `before` and `after`. The first
imports of a document are set apart by blank lines. -/
def importBlock (d : Document) (before after : Text) : Text :=
  if d.missingImports.isEmpty then [] else
    let areFirst := !(lines d.base).any Code.isImportLine
    let endsLine := before.isEmpty || endsWith ['\n'] before
    let isApartBefore := before.isEmpty || endsWith ['\n', '\n'] before
    let isApartAfter := startsWith ['\n'] after
    (if endsLine then [] else ['\n']) ++ (if areFirst && !isApartBefore then ['\n'] else []) ++
      d.missingImports.flatMap Code.importLine ++
      (if areFirst && !isApartAfter then ['\n'] else [])

end SnippetEngine.Document
