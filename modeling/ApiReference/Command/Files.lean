import ApiReference.Command.Failure

/-!
# What commands act on

Commands read and write files, print lines, and note lines on the side for whoever watches.
`Workspace` is all they know of the world, so a command can act on the files of a computer and just
as well on a `Directory`, which is a value.

A directory is a list of files.  The place of a file is the list of the names that lead to it, and
the directories inside a directory are those that its files stand in.
-/

namespace ApiReference

set_option autoImplicit false

/-- What commands do to the world. -/
class Workspace (m : Type → Type) where
  /-- Read a file. -/
  read : (path : String) → m (Except FileError String)
  /-- Write a file, and return why that is not possible, if it is not. -/
  write : (path content : String) → m (Except FileError Unit)
  /-- Print a line. -/
  print : (line : String) → m Unit
  /-- Note a line on the side. -/
  note : (line : String) → m Unit

/-! ## Directories -/

/-- A file with the names that lead to it. -/
structure StoredFile where
  place : List String
  content : String
deriving DecidableEq, Repr, Inhabited

/-- Files in an order. -/
structure Directory where
  files : List StoredFile
deriving DecidableEq, Repr, Inhabited

/-- Where a path leads. -/
inductive PathTarget where
  | file (place : List String)
  | directory
  /-- To a file that could be there but is not. -/
  | absent (place : List String)
  /-- To a directory that could be there but is not. -/
  | absentDirectory
  | nowhere (error : FileError)
deriving DecidableEq, Repr

namespace Directory

/-- The file at a place. -/
def file? (directory : Directory) (place : List String) : Option StoredFile :=
  directory.files.find? (·.place = place)

/-- Some file stands in the directory at a place. -/
def hasDirectory (directory : Directory) (place : List String) : Bool :=
  directory.files.any fun file => place.isPrefixOf file.place && place ≠ file.place

/-- Follow a path, name by name, from the directory at a place. -/
def follow (directory : Directory) (here : List String) : List String → PathTarget
  | [] => .directory
  | name :: later =>
    if name = "" ∨ name = "." then directory.follow here later
    else if name = ".." then
      if here.isEmpty then .nowhere .notFound else directory.follow here.dropLast later
    else
      let next := here ++ [name]
      if (directory.file? next).isSome then
        if later.isEmpty then .file next else .nowhere .notDirectory
      else if directory.hasDirectory next then directory.follow next later
      else if later.isEmpty then .absent next
      else if later.all (·.isEmpty) then .absentDirectory
      else .nowhere .notFound

/-- The names of a path, which stand between slashes. -/
def namesOf (path : String) : List String :=
  ((path.toList.splitOnP (· = '/'))).map String.ofList

/-- Where a path leads from the top of a directory. -/
def target (directory : Directory) (path : String) : PathTarget :=
  match namesOf path with
  | [""] => .nowhere .notFound
  | "" :: names => if names.all (·.isEmpty) then .directory else .nowhere .notFound
  | names => directory.follow [] names

/-- Read a file of a directory. -/
def read (directory : Directory) (path : String) : Except FileError String :=
  match directory.target path with
  | .file place =>
    match directory.file? place with
    | some file => .ok file.content
    | none => .error .notFound
  | .directory => .error .isDirectory
  | .absent _ | .absentDirectory => .error .notFound
  | .nowhere error => .error error

/-- Put a file at a place, instead of the one that is there. -/
def put (directory : Directory) (place : List String) (content : String) : Directory :=
  if (directory.file? place).isSome then
    ⟨directory.files.map fun file => if file.place = place then { file with content } else file⟩
  else ⟨directory.files ++ [⟨place, content⟩]⟩

/-- Write a file of a directory. -/
def write (directory : Directory) (path content : String) : Except FileError Directory :=
  match directory.target path with
  | .file place | .absent place => .ok (directory.put place content)
  | .directory | .absentDirectory => .error .isDirectory
  | .nowhere error => .error error

/-- The directory of files that are named by paths. -/
def ofFiles (files : List (String × String)) : Directory :=
  ⟨files.map fun file => ⟨(namesOf file.1).filter fun name => name ≠ "" ∧ name ≠ ".", file.2⟩⟩

/-- The files of a directory that an earlier one does not have as they are. -/
def changedSince (directory earlier : Directory) : List (String × String) :=
  (directory.files.filter fun file => !earlier.files.contains file).map fun file =>
    ("/".intercalate file.place, file.content)

end Directory

/-! ## Sessions -/

/-- A directory with what commands have printed and noted while they acted on it. -/
structure Session where
  directory : Directory
  printed : List String
  noted : List String
deriving DecidableEq, Repr, Inhabited

namespace Session

/-- The session in which nothing has happened yet. -/
def start (directory : Directory) : Session :=
  ⟨directory, [], []⟩

/-- The printed lines as one text. -/
def printedText (session : Session) : String :=
  String.join (session.printed.map (· ++ "\n"))

end Session

instance : Workspace (StateM Session) where
  read path := do return (← get).directory.read path
  write path content := do
    match (← get).directory.write path content with
    | .ok directory => modify fun session => { session with directory }; return .ok ()
    | .error error => return .error error
  print line := modify fun session => { session with printed := session.printed ++ [line] }
  note line := modify fun session => { session with noted := session.noted ++ [line] }

end ApiReference
