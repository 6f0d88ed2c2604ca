import ArmorPolicy.Include.Expansion
import ArmorPolicy.Reader.Scan

/-!
# Reading with included files

An included file is read once in a session, however its path is spelled.  A file that includes
itself, also through others, is a fault.
-/

namespace ArmorPolicy

/-- The spelling under which an included file is known: the place to which the path leads, or the
absolute path if it leads nowhere. -/
def FileSystem.includeKey (files : FileSystem) (path : String) : String :=
  match files.resolve path with
  | .ok place => Path.ofComponents place
  | .error _ => Path.absolute files.workingDirectory path

namespace Include

/-- Marks a file as being read for as long as a reading goes on. -/
def during {α : Type} (name : List String) (reading : Reading α) : Reading α :=
  ExceptT.mk do
    modify fun session => { session with inProgress := name :: session.inProgress }
    let result ← reading.run
    modify fun session => { session with inProgress := session.inProgress.erase name }
    return result

/-- Reads all files that an include names, if includes are resolved at all. -/
def resolveWith (files : FileSystem) (readOne : String → Reading Fragment)
    (inclusion : Inclusion) : Reading Unit := do
  let session ← get
  if session.config.resolveIncludes then
    (inclusion.fullPaths files session.config.profileDir).forM fun path => do
      let _ ← readOne path

/-- Reads an included file that is neither known nor in progress.  What it includes itself is read by
`readOne`. -/
def readOnce (files : FileSystem) (readOne : String → Reading Fragment) (path : String) :
    Reading Fragment := do
  let key := files.includeKey path
  let name := Path.components key
  let session ← get
  match session.memo.get? name with
  | some fragment => return fragment
  | none =>
    if session.inProgress.contains name then throw (.fault (.includeCycle key))
    if !files.isFile key then throw (.fault (.includeMissing key))
    let text ← Reading.ofChecked (files.readText key)
    let state ← during name (Reader.read .fragment (resolveWith files readOne) key text)
    let fragment := state.fragment
    modify fun session => { session with memo := session.memo.insert name fragment }
    return fragment

/-- Reads an included file.  The first argument bounds the depth of inclusion.  A file is read inside
of itself only under another spelling, and what it includes is then in progress or known, so two
more than the number of files is enough. -/
def readWithin (files : FileSystem) : Nat → String → Reading Fragment
  | 0, path => throw (.fault (.includeCycle (files.includeKey path)))
  | depth + 1, path => readOnce files (readWithin files depth) path

def read (files : FileSystem) (path : String) : Reading Fragment :=
  readWithin files (files.size + 2) path

def resolve (files : FileSystem) (inclusion : Inclusion) : Reading Unit :=
  resolveWith files (read files) inclusion

end Include

namespace Reading

def text (files : FileSystem) (content filename : String) : Reading ParsedFile := do
  let state ← Reader.read .profiles (Include.resolve files) filename content
  return state.parsed

def file (files : FileSystem) (path : String) : Reading ParsedFile := do
  text files (← ofChecked (files.readText path)) path

def profileFiles (files : FileSystem) (directory : String) : Checked (List String) := do
  let names ← files.list directory
  return (names.map (Path.join directory)).filter fun path =>
    !files.isDirectory path && !Path.isSkippableDirectory path && !Path.isSkippableFile path

def directory (files : FileSystem) (path : String) : Reading (List ParsedFile) := do
  (← ofChecked (profileFiles files path)).mapM (file files)

end Reading

namespace Session

def clear (session : Session) : Session := { session with memo := .empty, inProgress := [] }

def included? (session : Session) (files : FileSystem) (path : String) : Option Fragment :=
  session.memo.get? (Path.components (files.includeKey path))

def fragments (session : Session) : List (String × Fragment) :=
  session.memo.values.map fun fragment => (fragment.filename, fragment)

/-! ## What includes lead to -/

def targets (session : Session) (files : FileSystem) (inclusions : List Inclusion) :
    List (List String) :=
  (inclusions.flatMap fun inclusion =>
    inclusion.fullPaths files session.config.profileDir).map fun path =>
      Path.components (files.includeKey path)

/-- Visits the known files of includes and, after each, what it includes itself; no file is visited
twice.  The first argument bounds the depth; the number of known files is enough. -/
def visit (session : Session) (files : FileSystem) :
    Nat → List (List String) → List (List String) → List (List String)
  | 0, visited, _ => visited
  | depth + 1, visited, names =>
    names.foldl
      (fun visited name =>
        match session.memo.get? name with
        | none => visited
        | some fragment =>
          if visited.contains name then visited
          else session.visit files depth (visited ++ [name])
            (session.targets files fragment.rules.inclusions))
      visited

/-- The files that includes lead to, in the order of the first visit. -/
def reached (session : Session) (files : FileSystem) (inclusions : List Inclusion) :
    List Fragment :=
  (session.visit files session.memo.size [] (session.targets files inclusions)).filterMap
    fun name => session.memo.get? name

/-- The paths of these files, as they were spelled when the files were read. -/
def includedFiles (session : Session) (files : FileSystem) (inclusions : List Inclusion) :
    List String :=
  (session.reached files inclusions).map Fragment.filename

def includedRules (session : Session) (files : FileSystem) (inclusions : List Inclusion) :
    Ruleset :=
  ⟨(session.reached files inclusions).flatMap fun fragment => fragment.rules.rules⟩

end Session

end ArmorPolicy
