/-!
# The kinds of rules

The policy language has fifteen kinds of statements.  Mount, remount, umount, pivot_root and unix
statements are kept as they stand, as one kind of freeform statements.
-/

namespace ArmorPolicy

inductive RuleKind where
  | abi
  | aliasing
  | boolean
  | capability
  | changeProfile
  | dbus
  | file
  | inclusion
  | network
  | freeform
  | ptrace
  | rlimit
  | signal
  | userns
  | assignment
  deriving DecidableEq, Repr

namespace RuleKind

def name : RuleKind → String
  | .abi => "abi"
  | .aliasing => "alias"
  | .boolean => "boolean"
  | .capability => "capability"
  | .changeProfile => "change_profile"
  | .dbus => "dbus"
  | .file => "file"
  | .inclusion => "include"
  | .network => "network"
  | .freeform => "opaque"
  | .ptrace => "ptrace"
  | .rlimit => "rlimit"
  | .signal => "signal"
  | .userns => "userns"
  | .assignment => "variable"

/-- All kinds, in the order of their names' declaration. -/
def all : List RuleKind :=
  [.abi, .aliasing, .boolean, .capability, .changeProfile, .dbus, .file, .inclusion, .network,
    .freeform, .ptrace, .rlimit, .signal, .userns, .assignment]

theorem mem_all (kind : RuleKind) : kind ∈ all := by
  cases kind <;> decide

def ofName? (name : String) : Option RuleKind := all.find? fun kind => kind.name == name

/-- Kinds that may only stand outside of profiles. -/
def preambleOnly : RuleKind → Bool
  | .abi | .assignment | .boolean => true
  | _ => false

end RuleKind

end ArmorPolicy
