import ArmorPolicy.Ruleset.Basic
import ArmorPolicy.Warning

/-!
# Scopes

A scope is what stands between a header and its closing brace: the rules of a profile, a child
profile or a hat.  Its flags are words between commas and blanks.  Unknown ones are kept, with a warning.
-/

namespace ArmorPolicy.Flags

open Text Line

def known : List String :=
  ["attach_disconnected", "audit", "chroot_attach", "chroot_no_attach", "chroot_relative",
    "complain", "debug", "default_allow", "delegate_deleted", "enforce", "interruptible", "kill",
    "mediate_deleted", "namespace_relative", "no_attach_disconnected", "prompt", "unconfined"]

def valued : List String := ["attach_disconnected.path=", "error=", "kill.signal="]

def isKnown (flag : String) : Bool :=
  known.contains flag || valued.any fun start => (after? start flag.toList).isSome

def ofText (text : String) : SortedSet String :=
  SortedSet.ofList ((fields (fun c => isBlank c || c == ',') text.toList).map String.ofList)

def warnings (flags : SortedSet String) : List Warning :=
  (flags.toList.filter fun flag => !isKnown flag).map .unknownFlag

end ArmorPolicy.Flags

namespace ArmorPolicy

open Text

inductive ScopeKind where
  | profile
  | child
  | hat
  deriving DecidableEq, Repr

structure Scope where
  name : String
  kind : ScopeKind
  filename : String
  attachment : Option Pattern := none
  flags : SortedSet String := .empty
  /-- The text between the parentheses of `xattrs=(…)`. -/
  xattrs : Option String := none
  profileWord : Bool := kind == .child
  /-- Whether the scope stands outside of its parent, under the name `parent//name`. -/
  external : Bool := false
  parent : Option String := none
  initialComment : List String := []
  headerComment : String := ""
  rules : Ruleset := {}
  deriving DecidableEq

/-! ## The rules of a scope -/

namespace Ruleset

def scopeOrder : List RuleKind :=
  [.inclusion, .rlimit, .capability, .network, .dbus, .freeform, .signal, .ptrace, .userns, .file,
    .changeProfile]

/-- Adds a rule that may stand inside of a profile. -/
def addInside (ruleset : Ruleset) (rule : Rule) : Checked Ruleset :=
  if scopeOrder.contains rule.kind then .ok (ruleset.add rule)
  else refuse (.insideProfile rule.kind rule.canonical)

def scopeLines (layout : Layout) (ruleset : Ruleset) (depth : Nat) : List String :=
  ruleset.sections scopeOrder layout depth

end Ruleset

namespace Scope

def fullName (scope : Scope) : String :=
  match scope.parent with
  | some parent => parent ++ "//" ++ scope.name
  | none => scope.name

def addFlags (scope : Scope) (text : String) : Scope :=
  { scope with flags := scope.flags.union (Flags.ofText text) }

def removeFlags (scope : Scope) (text : String) : Scope :=
  { scope with flags := scope.flags.filter fun flag => !(Flags.ofText text).contains flag }

def addRule (scope : Scope) (rule : Rule) : Checked Scope :=
  (scope.rules.addInside rule).map fun rules => { scope with rules }

def dedup (scope : Scope) (included : Option Ruleset) : Scope × DedupStats :=
  let (rules, stats) := scope.rules.dedup included
  ({ scope with rules }, stats)

/-! ## Listing -/

def headerName (scope : Scope) : String :=
  quoteIfNeeded (if scope.external then scope.fullName else scope.name)

/-- The name, and the attachment.  A hat is marked by a sign; the word `profile` may be left out
only before a path alone. -/
def title (scope : Scope) : String :=
  let name := scope.headerName
  if scope.kind = .hat && !scope.external && !scope.profileWord then "^" ++ name
  else
    let plainPath := name.toList.head? == some '/' && scope.kind = .profile
    let worded := scope.profileWord || scope.attachment.isSome || !plainPath
    (if worded then "profile " else "") ++ name ++
      match scope.attachment with
      | some attachment => " " ++ quoteIfNeeded attachment.glob
      | none => ""

def header (scope : Scope) (depth : Nat) : String :=
  indent depth ++ scope.title ++
    (match scope.xattrs with
      | some xattrs => " xattrs=(" ++ xattrs ++ ")"
      | none => "") ++
    (if scope.flags.isEmpty then ""
      else " flags=(" ++ ", ".intercalate scope.flags.toList ++ ")") ++
    " \x7b" ++ scope.headerComment

def dropEmptyEnd (lines : List String) : List String :=
  (lines.reverse.dropWhile String.isEmpty).reverse

def framed (scope : Scope) (depth : Nat) (body : List String) : List String :=
  scope.initialComment.map (indent depth ++ ·) ++ scope.header depth :: dropEmptyEnd body ++
    [indent depth ++ "\x7d"]

/-- Puts the lines of a child behind a body, with an empty line between them. -/
def appendChild (body child : List String) : List String :=
  match body.getLast? with
  | some last => if last.isEmpty then body ++ child else body ++ "" :: child
  | none => child

/-- Rules, then the children inside; children that stand outside follow.  The lines of a child are
given for each depth. -/
def linesAround (layout : Layout) (scope : Scope) (children : List (Scope × (Nat → List String)))
    (depth : Nat) : List String :=
  let inside := children.filter fun (child, _) => !child.external
  let outside := children.filter fun (child, _) => child.external
  let body := inside.foldl (fun body (_, lines) => appendChild body (lines (depth + 1)))
    (scope.rules.scopeLines layout (depth + 1))
  scope.framed depth body ++ outside.flatMap fun (_, lines) => "" :: lines depth

end Scope

end ArmorPolicy
