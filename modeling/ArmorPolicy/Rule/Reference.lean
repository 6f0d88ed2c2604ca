import ArmorPolicy.Line.Statement

/-!
# Rules that name another file

`abi` names the feature set that a policy is written for, `include` a file whose statements are
read.  A path in angle brackets is looked up below the profile directory.
-/

namespace ArmorPolicy

open Text Line

structure Abi where
  path : String
  magic : Bool
  deriving DecidableEq, Repr

structure Inclusion where
  path : String
  ifExists : Bool
  magic : Bool
  deriving DecidableEq, Repr

namespace Reference

inductive Form where
  | magic (path : List Char)
  | quoted (path : List Char)
  | bare (path : List Char)
  deriving DecidableEq, Repr

/-- A path in angle brackets or quotation marks, and the text behind it. -/
def enclosed? (s : List Char) : Option (Form × List Char) :=
  match s with
  | '<' :: rest => (upTo? '>' rest).map fun (path, rest) => (.magic path, rest)
  | '"' :: rest => (upTo? '"' rest).map fun (path, rest) => (.quoted path, rest)
  | _ => none

/-- What stands behind `if exists`. -/
def ifExists? (s : List Char) : Option (List Char) :=
  ((afterBlanks? s).bind (afterWord? "if")).bind (after? "exists")

/-- `if exists`: first with it, then without. -/
def ifExistsChoices (s : List Char) : List (Bool × List Char) :=
  match ifExists? s with
  | some rest => [(true, rest), (false, s)]
  | none => [(false, s)]

/-- A reference as it is written: with `if exists` or not, and the path. -/
structure Parts where
  ifExists : Bool
  form : Form
  deriving DecidableEq, Repr

section Readers

variable (referenced? : List Char → Option (Form × String))

def readParts? (s : List Char) : Option (Parts × String) :=
  (ifExistsChoices s).findSome? fun (ifExists, s) =>
    (referenced? s).map fun (form, comment) => (⟨ifExists, form⟩, comment)

/-- A keyword and a reference, of which `referenced?` reads the path and the end of the line. -/
def read? (keyword : String) : List Char → Option (Statement Parts) :=
  withoutModifiers fun s => (after? keyword (skipSign '#' s)).bind (readParts? referenced?)

end Readers

end Reference

open Reference

namespace Abi

def referenced? (s : List Char) : Option (Form × String) :=
  (enclosed? (trimStart s)).bind fun (form, s) => (commaEnding? s).map fun comment => (form, comment)

def read? : List Char → Option (Statement Parts) := Reference.read? referenced? "abi"

def make (base : RuleBase) (path : String) (magic : Bool) : Checked Abi := do
  base.forbidModifiers .abi
  if path.isEmpty then refuse .emptyAbiPath
  return { path, magic }

def ofParts (base : RuleBase) (parts : Parts) (line : List Char) : Checked Abi :=
  if parts.ifExists then refuse .abiIfExists
  else match parts.form with
    | .magic path => make base (String.ofList (trim path)) true
    | .quoted path => make base (String.ofList path) false
    | .bare _ => refuse (.malformed .abi (String.ofList (trim line)))

def text (abi : Abi) : String :=
  if abi.magic then "abi <" ++ abi.path ++ ">" else "abi \"" ++ abi.path ++ "\""

end Abi

namespace Inclusion

def bareChar (c : Char) : Bool := c != '<' && c != '>' && c != '"' && c != '#'

/-- A bare path reaches to the comment or the end of the line. -/
def bare? (s : List Char) : Option (Form × List Char) :=
  (afterBlanks? s).bind fun s =>
    match s.takeWhile bareChar with
    | [] => none
    | path => some (.bare (trimEnd path), s.dropWhile bareChar)

def referenced? (s : List Char) : Option (Form × String) :=
  ((enclosed? (trimStart s)).or (bare? s)).bind fun (form, s) =>
    (ending? s).map fun comment => (form, comment)

def read? : List Char → Option (Statement Parts) := Reference.read? referenced? "include"

def make (base : RuleBase) (path : String) (ifExists magic : Bool) : Checked Inclusion := do
  base.forbidModifiers .inclusion
  if path.isEmpty then refuse .emptyIncludePath
  return { path, ifExists, magic }

def ofParts (base : RuleBase) (parts : Parts) : Checked Inclusion :=
  match parts.form with
  | .magic path => make base (String.ofList (trim path)) parts.ifExists true
  | .quoted path => make base (String.ofList path) parts.ifExists false
  | .bare path =>
    if path.any isBlank then refuse (.includePathNeedsQuotes (String.ofList path))
    else make base (String.ofList path) parts.ifExists false

def text (inclusion : Inclusion) : String :=
  (if inclusion.ifExists then "include if exists " else "include ") ++
    if inclusion.magic then "<" ++ inclusion.path ++ ">" else "\"" ++ inclusion.path ++ "\""

/-- A file that must exist covers the same file when it may be missing. -/
def covers (inclusion other : Inclusion) : Bool :=
  inclusion.path == other.path && inclusion.magic == other.magic &&
    !(inclusion.ifExists && !other.ifExists)

end Inclusion

end ArmorPolicy
