import ArmorPolicy.Data.SortedMap
import ArmorPolicy.Error
import ArmorPolicy.FileSystem.Path

/-!
# A file system as a value

Files and directories are the entries of a finite map from the components of absolute paths.  The
order of the keys visits a directory before what is in it, and its contents in the order of their
names.  There are no symbolic links, so a path leads where its names say, and every file can be read.
-/

namespace ArmorPolicy

inductive FileEntry where
  | file (content : ByteArray)
  | directory

structure FileSystem where
  entries : SortedMap (List String) FileEntry := .empty
  /-- Where relative paths start. -/
  workingDirectory : List String := []

namespace FileSystem

/-- What stands at an absolute place.  The root is a directory. -/
def entryAt (files : FileSystem) (place : List String) : Option FileEntry :=
  if place.isEmpty then some .directory else files.entries.get? place

def isDirectoryAt (files : FileSystem) (place : List String) : Bool :=
  match files.entryAt place with
  | some .directory => true
  | _ => false

/-! ## Following paths -/

def nameLimit : Nat := 255

/-- The length that a path must not reach, in bytes. -/
def pathLimit : Nat := 4096

/-- Follows the pieces of a path from a place on.  Every piece, also an empty one, has to start
from a directory. -/
def follow (files : FileSystem) : List String → List String → Except FileFault (List String)
  | place, [] => .ok place
  | place, piece :: rest =>
    if !files.isDirectoryAt place then .error .notDirectory
    else if piece.isEmpty || piece == "." then follow files place rest
    else if piece == ".." then follow files place.dropLast rest
    else if piece.utf8ByteSize > nameLimit then .error .nameTooLong
    else if (files.entryAt (place ++ [piece])).isSome then follow files (place ++ [piece]) rest
    else .error .notFound

/-- The place to which a path leads. -/
def resolve (files : FileSystem) (path : String) : Except FileFault (List String) :=
  if path.isEmpty then .error .notFound
  else if path.toList.contains '\x00' then .error .nulInName
  else if path.utf8ByteSize ≥ pathLimit then .error .nameTooLong
  else
    let start := if Path.isAbsolute path then [] else files.workingDirectory
    files.follow start (Path.pieces path)

def find? (files : FileSystem) (path : String) : Option FileEntry :=
  match files.resolve path with
  | .ok place => files.entryAt place
  | .error _ => none

def isPresent (files : FileSystem) (path : String) : Bool := (files.find? path).isSome

def isDirectory (files : FileSystem) (path : String) : Bool :=
  match files.find? path with
  | some .directory => true
  | _ => false

def isFile (files : FileSystem) (path : String) : Bool :=
  match files.find? path with
  | some (.file _) => true
  | _ => false

/-! ## Reading -/

def readText (files : FileSystem) (path : String) : Checked String :=
  match files.resolve path with
  | .error fault => .error (.unreadable path fault)
  | .ok place =>
    match files.entryAt place with
    | some (.file content) =>
      match String.fromUTF8? content with
      | some text => .ok text
      | none => .error (.unreadable path .notUtf8)
    | some .directory => .error (.unreadable path .isDirectory)
    | none => .error (.unreadable path .notFound)

/-- The rest of a place below a directory. -/
def below? (directory place : List String) : Option (List String) :=
  if directory.isPrefixOf place then some (place.drop directory.length) else none

/-- All that is below a directory, by the components from there on. -/
def entriesBelow (files : FileSystem) (directory : List String) :
    List (List String × FileEntry) :=
  files.entries.entries.filterMap fun (place, entry) =>
    match below? directory place with
    | some (name :: rest) => some (name :: rest, entry)
    | _ => none

/-- What is in a directory, in the order of the names. -/
def entriesIn (files : FileSystem) (directory : List String) : List (String × FileEntry) :=
  (files.entriesBelow directory).filterMap fun (rest, entry) =>
    match rest with
    | [name] => some (name, entry)
    | _ => none

def openDirectory (files : FileSystem) (path : String) :
    Except FileFault (List (String × FileEntry)) :=
  match files.resolve path with
  | .error fault => .error fault
  | .ok place =>
    if files.isDirectoryAt place then .ok (files.entriesIn place) else .error .notDirectory

def list (files : FileSystem) (path : String) : Checked (List String) :=
  match files.openDirectory path with
  | .error fault => .error (.unreadable path fault)
  | .ok entries => .ok (entries.map Prod.fst)

def size (files : FileSystem) : Nat := files.entries.size

/-! ## Writing -/

def makeDirectory (files : FileSystem) (place : List String) : FileSystem :=
  { files with entries := files.entries.alter place fun known => known.getD .directory }

/-- The directories on the way to a place, from the outermost on. -/
def parents (place : List String) : List (List String) :=
  (List.range (place.length - 1)).map fun n => place.take (n + 1)

/-- Puts an entry at a place, with the directories on the way to it. -/
def write (files : FileSystem) (place : List String) (entry : FileEntry) : FileSystem :=
  let files := (parents place).foldl makeDirectory files
  match entry with
  | .directory => files.makeDirectory place
  | .file content => { files with entries := files.entries.insert place (.file content) }

def remove (files : FileSystem) (place : List String) : FileSystem :=
  { files with entries := files.entries.filterKeys fun other => !place.isPrefixOf other }

end FileSystem

end ArmorPolicy
