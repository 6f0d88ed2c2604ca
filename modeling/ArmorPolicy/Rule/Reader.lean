import ArmorPolicy.Rule.Basic

/-!
# Reading rules

Every kind has its own grammar.  A line is read as the first kind, in a fixed order, whose
grammar it fits; a line may fit a grammar and still be at fault.
-/

namespace ArmorPolicy

open Text Line

namespace Rule

def readBy {α : Type} (read : List Char → Option (Statement α))
    (body : RuleBase → α → Checked RuleBody) (line : List Char) : Option (Checked Rule) :=
  (read line).map fun statement =>
    (body (statement.base line) statement.parts).map fun body => ⟨statement.base line, body⟩

/-- Reads a line as a rule of one kind; none if it does not fit the grammar. -/
def readAs? (kind : RuleKind) (line : List Char) : Option (Checked Rule) :=
  match kind with
  | .abi => readBy Abi.read? (fun base parts => (Abi.ofParts base parts line).map .abi) line
  | .aliasing =>
    readBy Aliasing.read? (fun base parts => (Aliasing.ofParts base parts).map .aliasing) line
  | .boolean =>
    readBy BooleanSetting.read?
      (fun base parts => (BooleanSetting.ofParts base parts).map .boolean) line
  | .capability =>
    readBy Capability.read? (fun _ parts => (Capability.ofParts parts).map .capability) line
  | .changeProfile =>
    readBy ChangeProfile.read?
      (fun _ parts => (ChangeProfile.ofParts parts).map .changeProfile) line
  | .dbus => readBy Dbus.read? (fun _ parts => (Dbus.ofParts parts).map .dbus) line
  | .file => readBy File.read? (fun base parts => (File.ofParts base parts).map .file) line
  | .inclusion =>
    readBy Inclusion.read? (fun base parts => (Inclusion.ofParts base parts).map .inclusion) line
  | .network => readBy Network.read? (fun _ parts => (Network.ofParts parts).map .network) line
  | .freeform =>
    readBy Freeform.read? (fun _ parts => .ok (.freeform (Freeform.ofParts parts))) line
  | .ptrace => readBy Ptrace.read? (fun _ parts => (Ptrace.ofParts parts).map .ptrace) line
  | .rlimit => readBy Rlimit.read? (fun base parts => (Rlimit.ofParts base parts).map .rlimit) line
  | .signal => readBy Signal.read? (fun _ parts => (Signal.ofParts parts).map .signal) line
  | .userns => readBy Userns.read? (fun _ parts => (Userns.ofParts parts).map .userns) line
  | .assignment =>
    readBy Assignment.read?
      (fun base parts => (Assignment.ofParts base parts).map .assignment) line

/-- The order in which the kinds are tried: those with a keyword first, paths last. -/
def readingOrder : List RuleKind :=
  [.abi, .inclusion, .aliasing, .boolean, .assignment, .capability, .changeProfile, .dbus,
    .network, .ptrace, .rlimit, .signal, .userns, .freeform, .file]

def fits (kind : RuleKind) (line : List Char) : Bool := (readAs? kind line).isSome

def parseAs (kind : RuleKind) (line : String) : Checked Rule :=
  match readAs? kind line.toList with
  | some result => result
  | none => refuse (.malformed kind (trimmed line))

/-- Reads a line as a rule of any kind; none if it fits no grammar. -/
def parse? (line : String) : Option (Checked Rule) :=
  let s := line.toList
  readingOrder.findSome? fun kind => readAs? kind s

end Rule

end ArmorPolicy
