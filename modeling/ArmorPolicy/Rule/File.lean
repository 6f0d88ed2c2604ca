import ArmorPolicy.Line.Path
import ArmorPolicy.Line.Statement
import ArmorPolicy.Pattern
import ArmorPolicy.Rule.Extent
import ArmorPolicy.Rule.FilePermission

/-!
# File access

A file rule is written as a path and its permissions, as permissions and their path, or as `file`
alone, which is for all files.  The permissions may name an execute mode, and then a target.
-/

namespace ArmorPolicy

open Text Line

structure File where
  path : Extent Pattern
  permissions : Extent FilePermissions
  exec : Option ExecMode
  target : Extent Pattern
  owner : Bool
  fileWord : Bool := false
  permissionsFirst : Bool := false
  deriving DecidableEq, Repr

namespace File

/-! ## Making -/

def everything (owner : Bool) : File :=
  { path := .all, permissions := .all, exec := none, target := .all, owner }

/-- The mode has to fit the decision: `x` under a denial, any other mode elsewhere. -/
def execOf (deny : Bool) : Option String → Checked (Option ExecMode)
  | none => .ok none
  | some name =>
    if deny then if name == "x" then .ok (some .x) else refuse (.denyExecMode name)
    else if name == "x" then refuse .execModeMissing
    else match ExecMode.ofName? name with
      | some mode => .ok (some mode)
      | none => reject (.unknownExecMode name)

def permissionsOf (hasExec : Bool) : Extent (SortedSet Char) → Checked (Extent FilePermissions)
  | .all => .ok .all
  | .only letters => do
      let permissions ← FilePermissions.ofLetters letters
      if permissions.append && permissions.write then refuse .appendAndWrite
      else if permissions.isEmpty && !hasExec then reject .noPermissions
      else return .only permissions

def links (permissions : Extent FilePermissions) : Bool :=
  (permissions.value?.map FilePermissions.link).getD false

/-- A path goes with permissions; a target needs a mode or the permission to link. -/
def make (deny : Bool) (path : Extent Pattern) (letters : Extent (SortedSet Char))
    (exec : Option String) (target : Extent Pattern) (owner : Bool) : Checked File := do
  let permissions ← permissionsOf exec.isSome letters
  let exec ← execOf deny exec
  if path.isAll != permissions.isAll then reject .pathWithoutPermissions
  else if path.isAll && (exec.isSome || !target.isAll) then reject .execOnBareFile
  else if !target.isAll && exec.isNone && !links permissions then refuse .targetWithoutExec
  else return { path, permissions, exec, target, owner }

def withStyle (file : File) (fileWord permissionsFirst : Bool) : File :=
  { file with fileWord, permissionsFirst }

def lettersOf (permissions : FilePermissions) : SortedSet Char :=
  SortedSet.ofList (permissions.toList.map FilePermission.letter)

def ofAccess (deny : Bool) (path : Pattern) (access : FileAccess) (target : Extent Pattern)
    (owner : Bool) : Checked File :=
  make deny (.only path) (.only (lettersOf access.permissions))
    (access.exec.map ExecMode.name) target owner

/-- The rule that would have allowed a logged event. -/
def ofLogEvent (path letters : String) (owner : Bool) : Checked File := do
  let access ← FileAccess.read letters.toList false
  let path ← Pattern.ofLogEvent path true
  ofAccess false path access .all owner

/-! ## Reading -/

structure Entry where
  fileWord : Bool
  permissionsFirst : Bool
  path : List Char
  letters : List Char
  target : Option (List Char)
  deriving DecidableEq, Repr

structure Parts where
  owner : Bool
  entry : Option Entry
  deriving DecidableEq, Repr

/-- A run of letters that is not empty, and the text behind it. -/
def lettersAt? (s : List Char) : Option (List Char × List Char) :=
  match s.takeWhile isAsciiLetter with
  | [] => none
  | letters => some (letters, s.dropWhile isAsciiLetter)

def pathFirst? (s : List Char) : Option ((List Char × List Char × Option (List Char)) × String) :=
  let permissions (s : List Char) : Option (List Char × Option (List Char) × String) :=
    ((afterBlanks? s).bind lettersAt?).bind fun (letters, s) =>
      (targetEnding? s).map fun (target, comment) => (letters, target, comment)
  (path? permissions s).map fun (path, letters, target, comment) =>
    ((path, letters, target), comment)

def permissionsFirst? (s : List Char) :
    Option ((List Char × List Char × Option (List Char)) × String) :=
  (lettersAt? s).bind fun (letters, s) =>
    ((afterBlanks? s).bind (path? targetEnding?)).map fun (path, target, comment) =>
      ((path, letters, target), comment)

def pathWithAccess? (s : List Char) : Option (Entry × String) :=
  (optionalWord "file" s).findSome? fun (fileWord, s) =>
    ((pathFirst? s).map fun ((path, letters, target), comment) =>
        (⟨fileWord, false, path, letters, target⟩, comment)).or
      ((permissionsFirst? s).map fun ((path, letters, target), comment) =>
        (⟨fileWord, true, path, letters, target⟩, comment))

def read? : List Char → Option (Statement Parts) :=
  withModifiers fun s =>
    (optionalWord "owner" s).findSome? fun (owner, s) =>
      (((after? "file" s).bind commaEnding?).map fun comment => (⟨owner, none⟩, comment)).or
        ((pathWithAccess? s).map fun (entry, comment) => (⟨owner, some entry⟩, comment))

def targetOf : Option (List Char) → Checked (Extent Pattern)
  | none => .ok .all
  | some written => (Pattern.ofText (String.ofList (stripQuotes written)) false).map .only

def ofParts (base : RuleBase) (parts : Parts) : Checked File :=
  match parts.entry with
  | none => .ok (everything parts.owner)
  | some entry => do
      let path ← Pattern.ofText (String.ofList (stripQuotes entry.path)) true
      let access ← FileAccess.read entry.letters base.deny
      let target ← targetOf entry.target
      let file ← ofAccess base.deny path access target parts.owner
      return file.withStyle entry.fileWord entry.permissionsFirst

/-! ## Writing -/

def accessText (file : File) : String :=
  String.ofList ((file.permissions.value?.map FilePermissions.letters).getD []) ++
    (file.exec.map ExecMode.name).getD ""

def text (file : File) : String :=
  (if file.owner then "owner " else "") ++
    match file.path with
    | .all => "file"
    | .only path =>
      let path := quoteIfNeeded path.glob
      (if file.fileWord then "file " else "") ++
        (if file.permissionsFirst then file.accessText ++ " " ++ path
          else path ++ " " ++ file.accessText) ++
        file.target.text fun target => " -> " ++ quoteIfNeeded target.glob

/-! ## Comparing -/

/-- Targets matter for execution and links: a different target is a different profile. -/
def targetCovers (file other : File) : Bool :=
  !(other.exec.isSome || links other.permissions) ||
    (file.target.coversBy Pattern.covers other.target && file.target.isAll == other.target.isAll)

def covers (file other : File) : Bool :=
  file.path.coversBy Pattern.covers other.path &&
    file.permissions.coversBy FilePermissions.covers other.permissions &&
    (other.exec.isNone || file.exec == other.exec) && targetCovers file other &&
    (!file.owner || other.owner)

def same (file other : File) (strict : Bool) : Bool :=
  file.owner == other.owner && file.path.sameBy Pattern.same other.path &&
    file.permissions == other.permissions && file.exec == other.exec &&
    file.target.sameBy Pattern.same other.target &&
    (!strict || (file.fileWord == other.fileWord &&
      file.permissionsFirst == other.permissionsFirst))

end File

end ArmorPolicy
