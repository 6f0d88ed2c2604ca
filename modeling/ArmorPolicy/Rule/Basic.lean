import ArmorPolicy.Rule.Alias
import ArmorPolicy.Rule.Capability
import ArmorPolicy.Rule.ChangeProfile
import ArmorPolicy.Rule.Dbus
import ArmorPolicy.Rule.File
import ArmorPolicy.Rule.Freeform
import ArmorPolicy.Rule.Network
import ArmorPolicy.Rule.Process
import ArmorPolicy.Rule.Reference
import ArmorPolicy.Rule.Rlimit
import ArmorPolicy.Rule.Variable

/-!
# Rules

A rule is its modifiers and a body of one of the fifteen kinds.  Rules are written in one canonical
form; they are compared only within a kind.
-/

namespace ArmorPolicy

open Text

inductive RuleBody where
  | abi (abi : Abi)
  | aliasing (aliasing : Aliasing)
  | boolean (setting : BooleanSetting)
  | capability (capability : Capability)
  | changeProfile (change : ChangeProfile)
  | dbus (dbus : Dbus)
  | file (file : File)
  | inclusion (inclusion : Inclusion)
  | network (network : Network)
  | freeform (freeform : Freeform)
  | ptrace (ptrace : Ptrace)
  | rlimit (rlimit : Rlimit)
  | signal (signal : Signal)
  | userns (userns : Userns)
  | assignment (assignment : Assignment)
  deriving DecidableEq

structure Rule where
  base : RuleBase
  body : RuleBody
  deriving DecidableEq

namespace RuleBody

def kind : RuleBody → RuleKind
  | .abi _ => .abi
  | .aliasing _ => .aliasing
  | .boolean _ => .boolean
  | .capability _ => .capability
  | .changeProfile _ => .changeProfile
  | .dbus _ => .dbus
  | .file _ => .file
  | .inclusion _ => .inclusion
  | .network _ => .network
  | .freeform _ => .freeform
  | .ptrace _ => .ptrace
  | .rlimit _ => .rlimit
  | .signal _ => .signal
  | .userns _ => .userns
  | .assignment _ => .assignment

def text : RuleBody → String
  | .abi content => content.text
  | .aliasing content => content.text
  | .boolean content => content.text
  | .capability content => content.text
  | .changeProfile content => content.text
  | .dbus content => content.text
  | .file content => content.text
  | .inclusion content => content.text
  | .network content => content.text
  | .freeform content => content.text
  | .ptrace content => content.text
  | .rlimit content => content.text
  | .signal content => content.text
  | .userns content => content.text
  | .assignment content => content.text

/-- Whether a body grants all that another body grants; none for bodies of different kinds. -/
def covers? : RuleBody → RuleBody → Option Bool
  | .abi mine, .abi theirs => some (mine == theirs)
  | .aliasing mine, .aliasing theirs => some (mine == theirs)
  | .boolean mine, .boolean theirs => some (mine == theirs)
  | .capability mine, .capability theirs => some (mine.covers theirs)
  | .changeProfile mine, .changeProfile theirs => some (mine.covers theirs)
  | .dbus mine, .dbus theirs => some (mine.covers theirs)
  | .file mine, .file theirs => some (mine.covers theirs)
  | .inclusion mine, .inclusion theirs => some (mine.covers theirs)
  | .network mine, .network theirs => some (mine.covers theirs)
  | .freeform mine, .freeform theirs => some (mine == theirs)
  | .ptrace mine, .ptrace theirs => some (mine.covers theirs)
  | .rlimit mine, .rlimit theirs => some (mine.covers theirs)
  | .signal mine, .signal theirs => some (mine.covers theirs)
  | .userns mine, .userns theirs => some (mine.covers theirs)
  | .assignment mine, .assignment theirs => some (mine.covers theirs)
  | _, _ => none

/-- Whether two bodies say the same; strictly, also in the same style. -/
def same? (strict : Bool) : RuleBody → RuleBody → Option Bool
  | .abi mine, .abi theirs => some (mine == theirs)
  | .aliasing mine, .aliasing theirs => some (mine == theirs)
  | .boolean mine, .boolean theirs => some (mine == theirs)
  | .capability mine, .capability theirs => some (mine == theirs)
  | .changeProfile mine, .changeProfile theirs => some (mine.same theirs)
  | .dbus mine, .dbus theirs => some (mine.same theirs)
  | .file mine, .file theirs => some (mine.same theirs strict)
  | .inclusion mine, .inclusion theirs => some (mine == theirs)
  | .network mine, .network theirs => some (mine == theirs)
  | .freeform mine, .freeform theirs => some (mine == theirs)
  | .ptrace mine, .ptrace theirs => some (mine.same theirs)
  | .rlimit mine, .rlimit theirs => some (mine.same theirs)
  | .signal mine, .signal theirs => some (mine.same theirs)
  | .userns mine, .userns theirs => some (mine == theirs)
  | .assignment mine, .assignment theirs => some (mine == theirs)
  | _, _ => none

end RuleBody

namespace RuleKind

def showsModifiers : RuleKind → Bool
  | .abi | .aliasing | .boolean | .inclusion | .rlimit | .assignment => false
  | _ => true

def terminator : RuleKind → String
  | .inclusion | .boolean | .assignment => ""
  | _ => ","

end RuleKind

namespace Rule

def kind (rule : Rule) : RuleKind := rule.body.kind

/-- The canonical form, without indentation. -/
def canonical (rule : Rule) : String :=
  (if rule.kind.showsModifiers then rule.base.modifiers else "") ++ rule.body.text ++
    rule.kind.terminator ++ rule.base.comment

def clean (rule : Rule) (depth : Nat) : String := indent depth ++ rule.canonical

/-- The statement as it was written; the canonical form once the rule has changed. -/
def raw (rule : Rule) (depth : Nat) : String :=
  indent depth ++ rule.base.written.getD rule.canonical

/-- Coverage between rules; rules of different kinds do not cover each other. -/
def coversWith (checkDecision checkAudit : Bool) (rule other : Rule) : Bool :=
  rule.base.covers other.base checkDecision checkAudit &&
    (rule.body.covers? other.body).getD false

def sameAs (strict : Bool) (rule other : Rule) : Bool :=
  rule.base.same other.base strict && (rule.body.same? strict other.body).getD false

/-- Coverage for callers that must not mix kinds. -/
def covers (rule other : Rule) (checkDecision checkAudit : Bool) : Checked Bool :=
  if rule.kind = other.kind then .ok (rule.coversWith checkDecision checkAudit other)
  else reject (.kindsDiffer rule.kind other.kind)

/-- Equality for callers that must not mix kinds. -/
def same (rule other : Rule) (strict : Bool) : Checked Bool :=
  if rule.kind = other.kind then .ok (rule.sameAs strict other)
  else reject (.kindsDiffer rule.kind other.kind)

end Rule

end ArmorPolicy
