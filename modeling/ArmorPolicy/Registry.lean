import ArmorPolicy.Profile.Parsed

/-!
# The registry of files and profiles

The registry knows the preambles of files and in which file each profile stands.  Names and
attachments are unique; a registration that fails changes nothing.
-/

namespace ArmorPolicy

/-- A file with the names of the profiles that are registered for it. -/
structure SourceFile where
  filename : String
  preamble : Preamble := {}
  profiles : List String := []
  deriving DecidableEq

structure Registry where
  files : SortedMap String SourceFile := .empty
  names : SortedMap String String := .empty
  attachments : SortedMap String (String × Pattern) := .empty
  deriving DecidableEq

/-- Registering can fail.  What it has changed by then stays changed. -/
abbrev Registering (α : Type) : Type := ExceptT PolicyError (StateM Registry) α

namespace Registry

def conflict {α : Type} (clash : Clash) : Checked α := .error (.clash clash)

/-! ## Asking -/

def listed (registry : Registry) (filename : String) : Checked SourceFile :=
  match registry.files.get? filename with
  | some file => .ok file
  | none => reject (.fileNotListed filename)

def fileOfName? (registry : Registry) (name : String) : Option String := registry.names.get? name

/-- The file of an attachment: the one that is stated so, or else the first in the order of the
attachments that matches. -/
def fileOfAttachment? (registry : Registry) (attachment : String) : Option String :=
  match registry.attachments.get? attachment with
  | some (filename, _) => some filename
  | none =>
    (registry.attachments.values.find? fun (_, pattern) => pattern.isMatch attachment).map
      Prod.fst

def profilesIn (registry : Registry) (filename : String) : Checked (List String) :=
  (registry.listed filename).map SourceFile.profiles

def preambleLines (registry : Registry) (layout : Layout) (filename : String) (depth : Nat) :
    Checked (List String) :=
  (registry.listed filename).map fun file => file.preamble.lines layout depth

/-- The attachment of a profile: the one that is stated, or a name that is a path. -/
def attachmentOf (name : String) : Option String → Option String
  | some attachment => some attachment
  | none => if name.toList.head? == some '/' then some name else none

def checkProfile (registry : Registry) (filename name : String) (attachment : Option String) :
    Checked (Option (String × Pattern)) :=
  match registry.names.get? name with
  | some known => conflict (.profileElsewhere name known filename)
  | none =>
    match attachmentOf name attachment with
    | none => .ok none
    | some key =>
      match registry.attachments.get? key with
      | some (known, _) => conflict (.attachmentElsewhere key known filename)
      | none => (Pattern.ofText key true).map fun pattern => some (key, pattern)

def insertProfile (registry : Registry) (filename name : String)
    (attachment : Option (String × Pattern)) : Registry :=
  let attachments := match attachment with
    | some (key, pattern) => registry.attachments.insert key (filename, pattern)
    | none => registry.attachments
  let files := match registry.files.get? filename with
    | some file =>
      if file.profiles.contains name then registry.files
      else registry.files.insert filename { file with profiles := file.profiles ++ [name] }
    | none => registry.files
  { files, attachments, names := registry.names.insert name filename }

structure Candidate where
  name : String
  attachment : Option (String × Pattern)
  deriving DecidableEq

end Registry

/-! ## Registering -/

namespace Registering

open Registry

def ofChecked {α : Type} (result : Checked α) : Registering α := ExceptT.mk (pure result)

/-- What registering gives, and the registry that it leaves, whether it succeeds or fails. -/
def outcome {α : Type} (registering : Registering α) (registry : Registry) :
    Checked α × Registry :=
  (ExceptT.run registering).run registry

def addFile (file : SourceFile) : Registering Unit := do
  if (← get).files.contains file.filename then throw (.misuse (.fileListed file.filename))
  else modify fun registry =>
    { registry with files := registry.files.insert file.filename file }

/-- An included file is registered like any file. -/
def addFragment (fragment : Fragment) : Registering Unit :=
  addFile { filename := fragment.filename, preamble := fragment.preamble
            profiles := fragment.profileNames }

def addProfile (filename name : String) (attachment : Option String) : Registering Unit := do
  if (← get).files.contains filename then
    let attachment ← ofChecked ((← get).checkProfile filename name attachment)
    modify fun registry => registry.insertProfile filename name attachment
  else throw (.misuse (.fileNotListed filename))

/-- Checks a profile against the registry and against the profiles before it in its file. -/
def checkNext (filename : String) (earlier : List Candidate) (profile : Profile) :
    Registering (List Candidate) := do
  let name := profile.scope.name
  let attachment ← ofChecked ((← get).checkProfile filename name
    (profile.scope.attachment.map Pattern.glob))
  if earlier.any fun candidate => candidate.name == name then
    throw (.clash (.profileTwice name filename))
  else
    match attachment.filter fun found => earlier.any fun candidate =>
        (candidate.attachment.map Prod.fst) == some found.1 with
    | some (key, _) => throw (.clash (.attachmentTwice key filename))
    | none => return earlier ++ [⟨name, attachment⟩]

/-- Registers a file with all its profiles, which are checked before anything is changed. -/
def addParsed (file : ParsedFile) : Registering Unit := do
  if (← get).files.contains file.filename then throw (.misuse (.fileListed file.filename))
  else
    let candidates ← file.profiles.foldlM (checkNext file.filename) []
    let source : SourceFile := { filename := file.filename, preamble := file.preamble }
    modify fun registry => { registry with files := registry.files.insert file.filename source }
    candidates.forM fun candidate => modify fun registry =>
      registry.insertProfile file.filename candidate.name candidate.attachment

def dedupPreamble (filename : String) : Registering DedupStats := do
  let file ← ofChecked ((← get).listed filename)
  let (preamble, stats) := file.preamble.dedup
  modify fun registry =>
    { registry with files := registry.files.insert filename { file with preamble } }
  return stats

/-- The registry after registering and what it gave, if it succeeds. -/
def after {α : Type} (registering : Registering α) (registry : Registry) :
    Checked (Registry × α) :=
  match registering.outcome registry with
  | (.ok a, registry) => .ok (registry, a)
  | (.error error, _) => .error error

end Registering

namespace Registry

def addFile (registry : Registry) (file : SourceFile) : Checked Registry :=
  ((Registering.addFile file).after registry).map Prod.fst

def addFragment (registry : Registry) (fragment : Fragment) : Checked Registry :=
  ((Registering.addFragment fragment).after registry).map Prod.fst

def addProfile (registry : Registry) (filename name : String) (attachment : Option String) :
    Checked Registry :=
  ((Registering.addProfile filename name attachment).after registry).map Prod.fst

def addParsed (registry : Registry) (file : ParsedFile) : Checked Registry :=
  ((Registering.addParsed file).after registry).map Prod.fst

def dedupPreamble (registry : Registry) (filename : String) : Checked (Registry × DedupStats) :=
  (Registering.dedupPreamble filename).after registry

/-! ## Variables of several files -/

/-- The definitions so far, each with the file in which it stands. -/
abbrev Definitions : Type := SortedMap String (String × SortedSet String)

/-- Adds the definitions of a file, none of which may be there already. -/
def addDefinitions (filename : String) (definitions : Definitions)
    (source : String × MergedVariables) : Checked Definitions :=
  source.2.defined.entries.foldlM
    (fun definitions (name, values) =>
      match definitions.get? name with
      | some (first, _) => conflict (.variableTwice filename name first source.1)
      | none => .ok (definitions.insert name (source.1, values)))
    definitions

/-- Adds the additions of a file, all to variables that are defined. -/
def addAdditions (filename : String) (definitions : Definitions) (additions : Bindings)
    (source : String × MergedVariables) : Checked Bindings :=
  source.2.added.entries.foldlM
    (fun additions (name, values) =>
      if definitions.contains name then .ok (additions.extend name values)
      else conflict (.variableUndeclared filename name source.1))
    additions

/-- The variables of a file and of the files that it includes, as far as these are registered. -/
def mergedVariables (registry : Registry) (filename : String) (includes : List String) :
    Checked MergedVariables := do
  let main ← registry.listed filename
  let others := includes.filterMap fun name =>
    (registry.files.get? name).map fun file => (name, file.preamble.mergedVariables)
  let sources := (filename, main.preamble.mergedVariables) :: others
  let definitions ← sources.foldlM (addDefinitions filename) .empty
  let added ← sources.foldlM (addAdditions filename definitions) .empty
  let defined := definitions.entries.foldl
    (fun (bindings : Bindings) (name, _, values) => bindings.insert name values) .empty
  return { defined, added }

end Registry

end ArmorPolicy
