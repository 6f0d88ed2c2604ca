import ArmorPolicy.Text.Basic

/-!
# Paths

A path is a text whose pieces stand between slashes.  Empty pieces and dots say nothing about
where it leads, so paths are compared by the other pieces, their components.
-/

namespace ArmorPolicy.Path

open Text

def pieces (path : String) : List String := (splitAt (· == '/') path.toList).map String.ofList

def isAbsolute (path : String) : Bool := path.toList.head? == some '/'

def components (path : String) : List String :=
  (pieces path).filter fun piece => !piece.isEmpty && piece != "."

def ofComponents (components : List String) : String := "/" ++ "/".intercalate components

def join (base path : String) : String :=
  if base.isEmpty || base.toList.getLast? == some '/' then base ++ path else base ++ "/" ++ path

/-- The last component, unless it leads upwards. -/
def fileName? (path : String) : Option String :=
  (components path).getLast?.filter (· != "..")

/-- An absolute spelling of a path that need not exist.  Dots and repeated slashes go; a slash at
the end and exactly two slashes at the start stay.  The empty path has no such spelling. -/
def absolute (workingDirectory : List String) (path : String) : String :=
  if path.isEmpty then path
  else
    let start := if isAbsolute path then [] else workingDirectory
    let plain := ofComponents (start ++ components path)
    let doubled := match path.toList with
      | '/' :: '/' :: c :: _ => c != '/'
      | ['/', '/'] => true
      | _ => false
    let text := if doubled then "/" ++ plain else plain
    if path.toList.getLast? == some '/' && plain != "/" then text ++ "/" else text

/-! ## Names that are passed over -/

/-- Endings of the names that package managers leave behind. -/
def leftovers : List String :=
  [".dpkg-new", ".dpkg-old", ".dpkg-dist", ".dpkg-bak", ".rpmnew", ".rpmsave", ".orig", ".rej", "~"]

/-- Hidden files, notes and leftovers hold no policy. -/
def isSkippableName (name : String) : Bool :=
  name.isEmpty || name.toList.head? == some '.' || name == "README" ||
    leftovers.any fun ending => ending.toList.isSuffixOf name.toList

def isSkippableFile (path : String) : Bool :=
  match fileName? path with
  | some name => isSkippableName name
  | none => true

def specialDirectories : List String := ["disable", "cache", "force-complain", "lxc"]

/-- Whether a directory is passed over: its name is special, and no newline stands before it. -/
def isSkippableDirectory (path : String) : Bool :=
  let reversed := match path.toList.reverse with
    | '/' :: rest => rest
    | rest => rest
  let name := (reversed.takeWhile (· != '/')).reverse
  let before := reversed.dropWhile (· != '/')
  specialDirectories.contains (String.ofList name) && !before.contains '\n'

end ArmorPolicy.Path
