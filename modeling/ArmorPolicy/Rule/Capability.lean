import ArmorPolicy.Data.SortedSet
import ArmorPolicy.Line.Statement
import ArmorPolicy.Rule.Extent

/-!
# Capabilities

A capability rule names capabilities of the kernel, or all of them.
-/

namespace ArmorPolicy

open Text Line

structure Capability where
  names : Extent (SortedSet String)
  deriving DecidableEq

namespace Capability

def known : List String :=
  ["audit_control", "audit_read", "audit_write", "block_suspend", "bpf", "checkpoint_restore",
    "chown", "dac_override", "dac_read_search", "fowner", "fsetid", "ipc_lock", "ipc_owner",
    "kill", "lease", "linux_immutable", "mac_admin", "mac_override", "mknod", "net_admin",
    "net_bind_service", "net_broadcast", "net_raw", "perfmon", "setfcap", "setgid", "setpcap",
    "setuid", "syslog", "sys_admin", "sys_boot", "sys_chroot", "sys_module", "sys_nice",
    "sys_pacct", "sys_ptrace", "sys_rawio", "sys_resource", "sys_time", "sys_tty_config",
    "wake_alarm"]

/-- The longest start that does not end in a blank and that a comma and the end of the line can
follow.  The first argument tells whether the start so far ends in a name. -/
def namesFrom? : Bool → List Char → Option (List Char × String)
  | _, [] => none
  | named, c :: rest =>
    match behind [c] (namesFrom? (isSolid c) rest) with
    | some found => some found
    | none => if named then (commaEnding? (c :: rest)).map ([], ·) else none

/-- The names, with a blank before each, reach as far as they can. -/
def names? (s : List Char) : Option (List Char × String) :=
  if (s.head?.map isBlank).getD false then namesFrom? false s else none

def read? : List Char → Option (Statement (Option (List Char))) :=
  withModifiers fun s =>
    (after? "capability" s).bind fun s =>
      ((names? s).map fun (names, comment) => (some names, comment)).or
        ((commaEnding? s).map fun comment => (none, comment))

def nameProblem (name : String) : Bool :=
  (trim name.toList).isEmpty || name.toList.any isBlank

/-- A rule for given names; the first name that cannot be one is reported. -/
def ofNames (names : List String) : Checked Capability :=
  match names.find? nameProblem with
  | some name => reject (.badCapabilityName name)
  | none =>
    let members := SortedSet.ofList names
    if members.isEmpty then reject .noCapabilities else .ok ⟨.only members⟩

def ofParts : Option (List Char) → Checked Capability
  | none => .ok ⟨.all⟩
  | some names => ofNames ((words names).map String.ofList)

def text (capability : Capability) : String :=
  "capability" ++ capability.names.text fun names => " " ++ spaced names.toList

def covers (capability other : Capability) : Bool :=
  capability.names.coversBy (fun mine theirs => theirs.subset mine) other.names

def unknownNames (capability : Capability) : List String :=
  match capability.names with
  | .all => []
  | .only names => names.toList.filter fun name => !known.contains name

end Capability

end ArmorPolicy
