import ArmorPolicy.Line.Path
import ArmorPolicy.Line.Statement
import ArmorPolicy.Pattern
import ArmorPolicy.Rule.Extent

/-!
# Changing the profile

`change_profile [safe|unsafe] [CONDITION] [-> TARGET],` lets a process enter another profile,
possibly only when it executes a file that the condition describes.
-/

namespace ArmorPolicy

open Text Line

inductive Scrubbing where
  | safe
  | keeping
  deriving DecidableEq, Repr

def Scrubbing.word : Scrubbing → String
  | .safe => "safe"
  | .keeping => "unsafe"

structure ChangeProfile where
  scrubbing : Option Scrubbing
  condition : Extent Pattern
  target : Extent Pattern
  deriving DecidableEq, Repr

namespace ChangeProfile

structure Parts where
  scrubbing : Option Scrubbing
  condition : Option (List Char)
  target : Option (List Char)
  deriving DecidableEq, Repr

/-- The ways to read the word for scrubbing: with it if it is there, then without. -/
def scrubbingCuts (s : List Char) : List (Option Scrubbing × List Char) :=
  let word (scrubbing : Scrubbing) : List (Option Scrubbing × List Char) :=
    (((afterBlanks? s).bind (after? scrubbing.word)).map fun rest => (some scrubbing, rest)).toList
  word .safe ++ word .keeping ++ [(none, s)]

/-- A condition, which may be left out, and what is read behind it. -/
def condition? {α : Type} (read : List Char → Option α) (s : List Char) :
    Option (Option (List Char) × α) :=
  match (afterBlanks? s).bind (path? read) with
  | some (path, value) => some (some path, value)
  | none => (read s).map (none, ·)

def read? : List Char → Option (Statement Parts) :=
  withModifiers fun s =>
    (after? "change_profile" s).bind fun s =>
      (scrubbingCuts s).findSome? fun (scrubbing, s) =>
        (condition? targetEnding? s).map fun (condition, target, comment) =>
          (⟨scrubbing, condition, target⟩, comment)

def make (scrubbing : Option Scrubbing) (condition target : Extent Pattern) :
    Checked ChangeProfile :=
  if scrubbing.isSome && condition.isAll then refuse .execModeWithoutCondition
  else
    match condition.value?.filter fun pattern =>
        pattern.glob.toList.head? != some '/' && pattern.glob.toList.head? != some '@' with
    | some pattern => refuse (.badExecCondition pattern.glob)
    | none => .ok ⟨scrubbing, condition, target⟩

/-- The pattern of a text from which quotation marks are taken off. -/
def patternOf (isPath : Bool) : Option (List Char) → Checked (Extent Pattern)
  | none => .ok .all
  | some written => (Pattern.ofText (String.ofList (stripQuotes written)) isPath).map .only

def ofParts (parts : Parts) : Checked ChangeProfile := do
  let condition ← patternOf true parts.condition
  let target ← patternOf false parts.target
  make parts.scrubbing condition target

def text (change : ChangeProfile) : String :=
  "change_profile" ++ (match change.scrubbing with
    | some scrubbing => " " ++ scrubbing.word
    | none => "") ++
    change.condition.text (fun pattern => " " ++ quoteIfNeeded pattern.glob) ++
    change.target.text (fun pattern => " -> " ++ quoteIfNeeded pattern.glob)

def covers (change other : ChangeProfile) : Bool :=
  change.scrubbing == other.scrubbing &&
    change.condition.coversBy Pattern.covers other.condition &&
    change.target.coversBy Pattern.covers other.target

def same (change other : ChangeProfile) : Bool :=
  change.scrubbing == other.scrubbing && change.condition.sameBy Pattern.same other.condition &&
    change.target.sameBy Pattern.same other.target

end ChangeProfile

end ArmorPolicy
