import ArmorPolicy.FileSystem.Basic
import ArmorPolicy.Rule.Reference

/-!
# The files that an include names

A path in an include is taken below the profile directory unless it is absolute.  A directory stands
for all files below it, except for those that are passed over.
-/

namespace ArmorPolicy

namespace FileSystem

/-- The files that a walk comes to, from a directory on: depth first, and in each directory by name.
A directory that is passed over is not entered, and neither is one that cannot be opened.  The first
argument bounds how deep the walk goes. -/
def walk (files : FileSystem) : Nat → String → List String
  | 0, _ => []
  | depth + 1, directory =>
    match files.openDirectory directory with
    | .error _ => []
    | .ok entries =>
      entries.flatMap fun (name, entry) =>
        let path := Path.join directory name
        match entry with
        | .file _ => if Path.isSkippableFile path then [] else [path]
        | .directory =>
          if Path.isSkippableDirectory path || Path.isSkippableFile path then []
          else walk files depth path

/-- No place is deeper than all of them together. -/
def depth (files : FileSystem) : Nat := files.entries.keys.flatten.length

def filesBelow (files : FileSystem) (directory : String) : List String :=
  files.walk files.depth directory

end FileSystem

namespace Inclusion

def fullPath (inclusion : Inclusion) (profileDir : String) : String :=
  if Path.isAbsolute inclusion.path then inclusion.path
  else Path.join profileDir inclusion.path

/-- The files to read.  A path that leads nowhere is kept, to be reported, unless it may be
missing. -/
def fullPaths (inclusion : Inclusion) (files : FileSystem) (profileDir : String) : List String :=
  let path := inclusion.fullPath profileDir
  if files.isDirectory path then files.filesBelow path
  else if files.isPresent path || !inclusion.ifExists then [path]
  else []

end Inclusion

end ArmorPolicy
