/-!
Folders: trees of files, kept as the entries at their places.

Writing to a path makes the directories that lead to it. It fails where a file stands in the place of a
directory or a directory in the place of the file, and where the path does not end in a name. A path may
lead out of the folder, up by names `..` or down from the root; what is written there is not in the folder.
-/

namespace GoalCoverage

namespace Folder

/--
The names from the folder down to an entry. A place outside begins with one `..` for each step up from the
folder, or with `/` if it is given from the root.
-/
abbrev Place := List String

inductive Entry where
  | directory
  | file (content : String)
  deriving DecidableEq

def isUpward (name : String) : Bool := name == ".." || name == "/"

end Folder

structure Folder where
  entries : List (Folder.Place × Folder.Entry) := []
  deriving DecidableEq

namespace Folder

def empty : Folder := {}

/-- The entry at a place; the folder itself and all that it lies in are directories. -/
def find? (f : Folder) (place : Place) : Option Entry :=
  if place.all isUpward then some .directory else f.entries.lookup place

def put (f : Folder) (place : Place) (entry : Entry) : Folder :=
  ⟨f.entries.filter (·.1 != place) ++ [(place, entry)]⟩

/-- The place one step up; the root is its own parent. -/
def parent (place : Place) : Place :=
  match place.getLast? with
  | none => [".."]
  | some ".." => place ++ [".."]
  | some "/" => place
  | some _ => place.dropLast

/-- Names of entries are not longer than this, in bytes. -/
def longestName : Nat := 255

/-- Paths are not longer than this, in bytes. -/
def longestPath : Nat := 4095

def isName (s : String) : Bool :=
  !s.isEmpty && s != "." && s != ".." && decide (s.utf8ByteSize ≤ longestName)

/-- Can a text be looked up as a path at all? -/
def isPath (s : String) : Bool := !s.contains '\x00' && decide (s.utf8ByteSize ≤ longestPath)

/--
Goes down from a directory along names and makes the directories that are missing. The directories made
before a step that fails remain.
-/
def enter : (here : Place) → (names : List String) → Folder → Option Place × Folder
  | here, [], f => (some here, f)
  | here, name :: rest, f =>
    if name == ".." then enter (parent here) rest f
    else
      let place := here ++ [name]
      match f.find? place with
      | some .directory => enter place rest f
      | some (.file _) => (none, f)
      | none => if isName name then enter place rest (f.put place .directory) else (none, f)

/-- Parts of a path that name nothing: repeated slashes and `.`. -/
def isBlank (part : String) : Bool := part == "" || part == "."

/-- The parts of a path without what names nothing at its end. -/
def trimEnd (parts : List String) : List String := (parts.reverse.dropWhile isBlank).reverse

/-- Writes a file in a directory, if its name can be that of a file. -/
def writeIn (f : Folder) (directory : Place) (name content : String) : Option Folder :=
  let place := directory ++ [name]
  if !isName name || f.find? place == some .directory then none else some (f.put place (.file content))

/-- Writes a file; yields whether that succeeded. -/
def write (f : Folder) (path content : String) : Bool × Folder :=
  let parts := path.splitOn "/"
  let above := trimEnd (trimEnd parts).dropLast
  let start := if path.startsWith "/" then ["/"] else []
  if !isPath ("/".intercalate above) then (false, f)
  else
    match enter start (above.filter (!isBlank ·)) f with
    | (none, f) => (false, f)
    | (some directory, f) =>
      if !isPath path then (false, f)
      else
        match writeIn f directory (parts.getLastD "") content with
        | some f => (true, f)
        | none => (false, f)

/-- All files in the folder with their paths, as they are written. -/
def files (f : Folder) : List (String × String) :=
  f.entries.filterMap fun (place, entry) =>
    match entry with
    | .file content => if place.head?.any isUpward then none else some ("/".intercalate place, content)
    | .directory => none

end Folder

end GoalCoverage
