-- The classes of code whose identifiers are renamed. Words end at blanks and identifiers at other
-- characters, too. But no identifier has a blank in it, so a map on identifiers goes word by word,
-- and a class goes by what becomes of its name if the word `class` stays the only one that declares.
import SnippetEngine.Proofs.Code.Identifiers
import SnippetEngine.Proofs.Text.Names

namespace SnippetEngine.Code

open Text

variable {f : Text → Text} {name rest keyword old new : Text}

/-! ## Words -/

theorem not_isBlank_of_isIdentifierChar {c : Char} (h : isIdentifierChar c = true) :
    isBlank c = false := by
  have hcases : isNameChar c = true ∨ c = '$' := by
    simpa [isIdentifierChar, isNameChar] using h
  rcases hcases with hname | rfl
  · exact not_isBlank_of_isNameChar hname
  · decide

/-- A class with the name `class` cannot be renamed. The word that declares it is renamed, too. -/
example :
    let renamed := rename "class".toList "class2".toList "class class {}".toList
    renamed = "class2 class2 {}".toList ∧ classNames renamed = [] := by
  decide +kernel

end SnippetEngine.Code
