-- A folder with the files and directories that are made in it, one after another. A step that
-- cannot be done is left out, and the directories made on the way to it stay.
import SnippetEngine.Text.Split

namespace SnippetEngine

inductive FileContent
  | directory
  | bytes (bytes : ByteArray)

abbrev Place := List Text

/-- What stands at the places of a folder. -/
abbrev Folder := List (Place × FileContent)

namespace Folder

/-- What stands at a place; the folder itself is a directory. -/
def content? (f : Folder) (place : Place) : Option FileContent :=
  if place.isEmpty then some .directory else (f.find? (·.1 == place)).map Prod.snd

/-- The folder with the content at the place, whatever stood there. -/
def put (place : Place) (content : FileContent) (f : Folder) : Folder :=
  (place, content) :: f.filter (·.1 != place)

def file? (f : Folder) (place : Place) : Option ByteArray :=
  match f.content? place with
  | some (.bytes bytes) => some bytes
  | _ => none

/-! ## Paths -/

def namesOf (path : Text) : List Text := Text.splitOn '/' path

def isHere (name : Text) : Bool := name.isEmpty || name == ['.']

def isParent (name : Text) : Bool := name == ['.', '.']

/-! ## Making files and directories -/

/-- A step that changes a folder. When it fails, what it has made stays. -/
abbrev Making := OptionT (StateM Folder)

/-- Goes from a directory to what a name says, and makes the directory if nothing stands there.
Fails at a file, and where the way leaves the folder. -/
def enter (here : Place) (name : Text) : Making Place := do
  if isHere name then return here
  if isParent name then
    if here.isEmpty then failure
    return here.dropLast
  let there := here ++ [name]
  match (← get).content? there with
  | some .directory => return there
  | some (.bytes _) => failure
  | none =>
    modify (put there .directory)
    return there

def enterAll (names : List Text) : Making Place := names.foldlM enter []

/-- Writes a file. Its last name is a name of its own, and no directory stands there. -/
def write (names : List Text) (bytes : ByteArray) : Making Unit := do
  let name := names.getLast?.getD []
  if isHere name || isParent name then failure
  let there := (← enterAll names.dropLast) ++ [name]
  match (← get).content? there with
  | some .directory => failure
  | _ => modify (put there (.bytes bytes))

/-- Makes what stands at a path. A path that starts with a slash leads out of the folder. -/
def make (path : Text) (content : FileContent) : Making Unit := do
  if path.head? == some '/' then failure
  match content with
  | .directory => let _ ← enterAll (namesOf path)
  | .bytes bytes => write (namesOf path) bytes

/-- The folder in which each path was made in turn. -/
def ofPaths (paths : List (Text × FileContent)) : Folder :=
  paths.foldl (fun f (path, content) => ((make path content).run.run f).2) []

end Folder

end SnippetEngine
