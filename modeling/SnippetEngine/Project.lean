-- The settings of a project, found among its files.
import SnippetEngine.Error
import SnippetEngine.Folder
import SnippetEngine.Toml.Parse

namespace SnippetEngine

namespace Project

/-- Where the settings stand. -/
def configPath? (f : Folder) : Option Text :=
  Config.locations.find? fun path => (f.file? (Folder.namesOf path)).isSome

/-- Reads settings from the bytes of a file. -/
def readConfig (bytes : ByteArray) : Except Error Config :=
  match String.fromUTF8? bytes with
  | none => .error .unreadableConfig
  | some content =>
    match (Toml.parse content.toList).bind Config.ofValue? with
    | none => .error .malformedConfig
    | some config => .ok config

/-- The settings of a project; none if no file holds them. -/
def loadConfig (f : Folder) : Except Error (Option Config) :=
  match (configPath? f).bind fun path => f.file? (Folder.namesOf path) with
  | none => .ok none
  | some bytes => some <$> readConfig bytes

end Project

end SnippetEngine
