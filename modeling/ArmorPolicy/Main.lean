import ArmorPolicy.Normalize

/-!
# The command line

`PROFILE [DIRECTORY] [CONFIG]` prints the canonical form of a profile file.  The files that it
may need are read from disk first: the profile, the configuration, all below the profile
directory, and the absolute paths that these include.
-/

namespace ArmorPolicy.CommandLine

/-- Files that have been read from disk, and the paths that have been looked at. -/
structure Disk where
  files : FileSystem
  seen : List String := []

/-- Reads a file, or a directory with all that is below it.  What cannot be read is left out. -/
partial def load (disk : Disk) (path : String) : IO Disk := do
  if disk.seen.contains path then return disk
  let disk := { disk with seen := path :: disk.seen }
  try
    let real ← IO.FS.realPath path
    let place := Path.components real.toString
    if ← real.isDir then
      let disk := { disk with files := disk.files.write place .directory }
      (← real.readDir).foldlM (fun disk entry => load disk entry.path.toString) disk
    else
      let content ← IO.FS.readBinFile real
      return { disk with files := disk.files.write place (.file content) }
  catch _ => return disk

def absoluteIncludes (content : ByteArray) : List String :=
  let lines := ((String.fromUTF8? content).map fun text => Text.lines text.toList).getD []
  lines.filterMap fun line =>
    match Rule.readAs? .inclusion line with
    | some (.ok ⟨_, .inclusion inclusion⟩) =>
      if Path.isAbsolute inclusion.path then some inclusion.path else none
    | _ => none

/-- Reads what the files include by absolute paths, until nothing new comes up. -/
partial def loadIncludes (disk : Disk) : IO Disk := do
  let wanted := disk.files.entries.values.flatMap fun
    | .file content => absoluteIncludes content
    | .directory => []
  let missing := wanted.filter fun path => !disk.seen.contains path
  if missing.isEmpty then return disk
  else loadIncludes (← missing.foldlM load disk)

def usage : String := "usage: PROFILE [DIRECTORY] [CONFIG]"

def run (options : NormalizeOptions) : IO (Checked (List String)) := do
  let workingDirectory := Path.components (← IO.currentDir).toString
  let disk ← (options.profile :: options.configFile.toList).foldlM load
    { files := { workingDirectory } }
  match options.config disk.files with
  | .error error => return .error error
  | .ok config =>
    let disk ← loadIncludes (← load disk config.profileDir)
    return normalize disk.files options

end ArmorPolicy.CommandLine

open ArmorPolicy in
def main (arguments : List String) : IO UInt32 := do
  match NormalizeOptions.ofArguments? arguments with
  | none =>
    IO.eprintln CommandLine.usage
    return 1
  | some options =>
    match ← CommandLine.run options with
    | .ok lines =>
      lines.forM IO.println
      return 0
    | .error error =>
      IO.eprintln error.message
      return 1
