/-!
# Files

* `FileError` — why a file cannot be read or written.
* `FileAccess` — what a run of the program asks of a file system.
* `FileTree` — a file system in memory, with `FileAccess` as steps on it.
-/

set_option autoImplicit false

namespace SchemaScript

/-- Why a file cannot be read or written. -/
inductive FileError where
  | notFound
  | notDirectory
  | isDirectory
  /-- A path, or a name in it, has too many bytes. -/
  | nameTooLong
  /-- A path has the character that systems end paths with. -/
  | nulInName
  | other (text : String)
  deriving DecidableEq, Repr

/-- What the system says of a file that cannot be read or written. -/
def FileError.message : FileError → String
  | .notFound => "No such file or directory (os error 2)"
  | .notDirectory => "Not a directory (os error 20)"
  | .isDirectory => "Is a directory (os error 21)"
  | .nameTooLong => "File name too long (os error 36)"
  | .nulInName => "file name contained an unexpected NUL byte"
  | .other text => text

/-- What a run of the program asks of a file system. -/
class FileAccess (m : Type → Type) where
  /-- The text of a file. -/
  read : String → m (Except FileError String)
  /-- Makes a text the content of a file. -/
  write : String → String → m (Except FileError Unit)
  /-- Whether a path leads to a directory. -/
  isDirectory : String → m Bool
  /-- Whether a path leads to a file. -/
  isFile : String → m Bool
  /-- The directory where a user keeps settings, if there is one. -/
  settingsDirectory? : m (Option String)

/-! ## Paths -/

namespace Path

/-- The parts of a path between its slashes. -/
def parts (path : String) : List String := (path.toList.splitOn '/').map String.ofList

/-- A path inside a directory. -/
def join (directory name : String) : String :=
  if directory.toList.getLast? = some '/' then directory ++ name else directory ++ "/" ++ name

/-- A path without the slashes at its end. A path of slashes alone leads to the root. -/
def trimSlashes (path : String) : String :=
  match path.toList.reverse.dropWhile (· == '/') with
  | [] => if path = "" then "" else "/"
  | names => String.ofList names.reverse

/-- The last part of a path that names something. -/
def baseName? (path : String) : Option String :=
  match ((parts path).filter fun part => part ≠ "" ∧ part ≠ ".").getLast? with
  | some ".." => none
  | last => last

/-- The most bytes that a path has. -/
def sizeLimit : Nat := 4095

/-- The most bytes that a name in a path has. -/
def nameLimit : Nat := 255

/-- Whether a path has the character that systems end paths with. -/
def hasNul (path : String) : Bool := path.toList.contains '\x00'

/-- Why a path leads nowhere, in whatever tree. -/
def fault? (path : String) : Option FileError :=
  if hasNul path then some .nulInName
  else if path = "" then some .notFound
  else if sizeLimit < path.utf8ByteSize then some .nameTooLong
  else none

end Path

/-! ## Trees -/

/-- A place in a tree: the names on the way to it from the root. -/
abbrev Place := List String

/-- What is said of a place where there is nothing: if its name is too long, nothing can be. -/
def Place.absence (place : Place) : FileError :=
  if place.getLast?.any fun name => Path.nameLimit < name.utf8ByteSize then .nameTooLong
  else .notFound

/-- A file system in memory. The root is a directory. -/
structure FileTree where
  files : List (Place × String) := []
  directories : List Place := []
  /-- Where paths that do not start with a slash start. -/
  working : Place := []
  /-- Where a user keeps settings. -/
  settings? : Option String := none
  deriving DecidableEq, Repr

namespace FileTree

/-- Whether there is a directory at a place. -/
def hasDirectory (t : FileTree) (place : Place) : Bool :=
  place.isEmpty || t.directories.contains place

/-- The text of the file at a place. -/
def file? (t : FileTree) (place : Place) : Option String := t.files.lookup place

/-- A tree with a directory at a place, and on the way to it. -/
def addDirectory (t : FileTree) (place : Place) : FileTree :=
  let way := (List.range (place.length + 1)).map place.take
  { t with directories := t.directories ++ way.filter fun p => !t.hasDirectory p }

/-- A tree with a file at a place, in the place of any that was there. -/
def setFile (t : FileTree) (place : Place) (text : String) : FileTree :=
  { t with files := t.files.filter (fun entry => entry.1 ≠ place) ++ [(place, text)] }

/-- A tree with a file, and with the directories on the way to it. -/
def addFile (t : FileTree) (place : Place) (text : String) : FileTree :=
  (t.addDirectory place.dropLast).setFile place text

/-- One part of a path further on, from a place that has to be a directory. -/
def step (t : FileTree) (place : Place) (part : String) : Except FileError Place :=
  if t.hasDirectory place then
    if part = "" ∨ part = "." then .ok place
    else if part = ".." then .ok place.dropLast
    else .ok (place ++ [part])
  else if (t.file? place).isSome then .error .notDirectory
  else .error (Place.absence place)

/-- The place at the end of the parts of a path. -/
def walk (t : FileTree) (path : String) : Except FileError Place :=
  (Path.parts path).foldlM t.step (if path.toList.head? = some '/' then [] else t.working)

/-- The place that a path leads to. There need be nothing there. -/
def resolve (t : FileTree) (path : String) : Except FileError Place :=
  match Path.fault? path with
  | some e => .error e
  | none => t.walk path

/-- The text of a file. -/
def read (t : FileTree) (path : String) : Except FileError String := do
  let place ← t.resolve path
  match t.file? place with
  | some text => return text
  | none => throw (if t.hasDirectory place then .isDirectory else Place.absence place)

/-- The tree after a text has become the content of a file. A path that ends with a slash names a
directory. -/
def write (t : FileTree) (path text : String) : Except FileError FileTree :=
  match Path.fault? path with
  | some e => .error e
  | none => do
    let place ← t.walk (Path.trimSlashes path)
    if t.hasDirectory place ∨ path.toList.getLast? = some '/' then
      throw .isDirectory
    else if Place.absence place = .nameTooLong then
      throw .nameTooLong
    else
      return t.setFile place text

/-- Whether a path leads to a directory. -/
def isDirectory (t : FileTree) (path : String) : Bool :=
  match t.resolve path with
  | .ok place => t.hasDirectory place
  | .error _ => false

/-- Whether a path leads to a file. -/
def isFile (t : FileTree) (path : String) : Bool :=
  match t.resolve path with
  | .ok place => (t.file? place).isSome
  | .error _ => false

end FileTree

instance : FileAccess (StateM FileTree) where
  read path := do return (← get).read path
  write path text := do
    match (← get).write path text with
    | .ok tree => do set tree; return .ok ()
    | .error e => return .error e
  isDirectory path := do return (← get).isDirectory path
  isFile path := do return (← get).isFile path
  settingsDirectory? := do return (← get).settings?

end SchemaScript
