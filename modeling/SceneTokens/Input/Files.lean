import SceneTokens.Input.Source
import SceneTokens.Utf8.Text

/-!
# Files

Sources and settings are read from files. A `Folder` is what a run can see of the file system:
files, which are sources named by the paths they were written to, and the folders inside. A path is
walked name by name, with `.` for the folder reached so far and `..` for the one around it, and
every folder on the way has to be there. Around the working folder there are other folders, of which
nothing is known but that they are there.

A folder stands for a file system that is given from outside. No result rests on a property of it.
-/

namespace SceneTokens

/-- Why a file cannot be read. -/
inductive FileFault where
  | notFound
  | isFolder
  | notText
deriving DecidableEq, Repr

/-- The reason as it is shown. -/
def FileFault.message : FileFault → String
  | notFound => "No such file or directory (os error 2)"
  | isFolder => "Is a directory (os error 21)"
  | notText => "stream did not contain valid UTF-8"

/-- The wording of a source that cannot be read. -/
def FileFault.sourceMessage (fault : FileFault) (path : String) : String :=
  "Failed to read source " ++ path ++ ": " ++ fault.message

/-- Files by path, and the folders inside by the names that lead to them. -/
structure Folder where
  files : List Source
  folders : List (List String)
deriving DecidableEq, Repr

namespace Folder

/-- A folder that a path has led to. -/
inductive Place where
  /-- The working folder, or a folder inside it by the names that lead there. -/
  | inside (names : List String)
  /-- A folder around the working folder. -/
  | outside
deriving DecidableEq, Repr

/-- The folder one name of a path leads to from a place, if it is there. An empty name and `.`
stay. -/
def enter? (f : Folder) (place : Place) (name : String) : Option Place :=
  if name = "" ∨ name = "." then some place
  else match place with
    | .outside => if name = ".." then some .outside else none
    | .inside names =>
      if name = ".." then
        if names.isEmpty then some .outside else some (.inside names.dropLast)
      else if f.folders.contains (names ++ [name]) then some (.inside (names ++ [name]))
      else none

/-- Where a path sets out: outside if it starts with a slash, else in the working folder. -/
def origin (path : String) : Place :=
  if path.startsWith "/" then .outside else .inside []

/-- The folder a path leads to, if it leads to one. An empty path leads nowhere. -/
def place? (f : Folder) (path : String) : Option Place :=
  if path = "" then none else (path.splitOn "/").foldlM f.enter? (origin path)

/-- The file at a path, as a source that is named by the path. -/
def read (f : Folder) (path : String) : Except FileFault Source :=
  match f.files.find? fun file => file.name == path with
  | some file => .ok file
  | none => if (f.place? path).isSome then .error .isFolder else .error .notFound

/-- The content of the file at a path as text. -/
def readText (f : Folder) (path : String) : Except FileFault String :=
  match f.read path with
  | .error fault => .error fault
  | .ok file =>
    match Utf8.text? file.content with
    | some text => .ok text
    | none => .error .notText

end Folder

end SceneTokens
