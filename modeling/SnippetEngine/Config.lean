-- The settings of a project.
import SnippetEngine.Compatibility

namespace SnippetEngine

structure Config where
  /-- The most variable names that are offered for one argument. -/
  maxArgumentCompletions : Nat := 5
  /-- What marks the place of the cursor until a result is applied. -/
  cursorMarker : Text := "/*$\x7bcursor\x7d*/".toList
  /-- The types that further types accept. -/
  compatible : List (Text × List Text) := []
  deriving DecidableEq

namespace Config

/-- The standard rules with the entries of the settings merged in. -/
def compatibility (config : Config) : Compatibility := Compatibility.ofEntries config.compatible

/-- Where the settings of a project may stand; the first that is a file counts. -/
def locations : List Text :=
  ["snipmatch.toml", ".snipmatch.toml", ".config/snipmatch.toml"].map String.toList

end Config

end SnippetEngine
