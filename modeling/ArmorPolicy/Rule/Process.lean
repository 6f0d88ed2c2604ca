import ArmorPolicy.Line.Statement
import ArmorPolicy.Rule.Clause

/-!
# Access between processes

Tracing, signals, and user namespaces.  The accesses of the first two come in several spellings and
imply each other.
-/

namespace ArmorPolicy

open Text Line

/-! ## Tracing -/

structure Ptrace where
  access : Access
  peer : Extent Pattern
  deriving DecidableEq

namespace Ptrace

def accessWords : List String :=
  ["r", "w", "rw", "wr", "read", "write", "readby", "trace", "tracedby"]

/-- Tracing a process implies reading it. -/
def implied (word : String) : List String :=
  if ["r", "read"].contains word then ["read"]
  else if ["w", "write", "trace", "rw", "wr"].contains word then ["read", "trace"]
  else if word == "readby" then ["readby"]
  else if word == "tracedby" then ["readby", "tracedby"]
  else []

def read? : List Char → Option (Statement (List Char)) := keywordStatement "ptrace" notNewline

def make (access : Access) (peer : Extent Pattern) : Checked Ptrace :=
  (access.check .ptrace accessWords).map fun _ => ⟨access, peer⟩

def ofParts (body : List Char) : Checked Ptrace := do
  let clauses ← Clauses.read body
  let access ← Access.ofWords .ptrace accessWords clauses.access
  let (peer, clauses) ← clauses.takePattern "peer"
  clauses.finish "ptrace"
  make access peer

def text (ptrace : Ptrace) : String :=
  "ptrace" ++ ptrace.access.text ++ ptrace.peer.conditionText "peer"

def covers (ptrace other : Ptrace) : Bool :=
  ptrace.access.covers implied other.access && ptrace.peer.coversBy Pattern.covers other.peer

def same (ptrace other : Ptrace) : Bool :=
  ptrace.access == other.access && ptrace.peer.sameBy Pattern.same other.peer

end Ptrace

/-! ## Signals -/

structure Signal where
  access : Access
  signals : Extent (SortedSet String)
  peer : Extent Pattern
  deriving DecidableEq

namespace Signal

def accessWords : List String := ["r", "w", "rw", "wr", "read", "write", "send", "receive"]

def names : List String :=
  ["hup", "int", "quit", "ill", "trap", "abrt", "bus", "fpe", "kill", "usr1", "segv", "usr2",
    "pipe", "alrm", "term", "stkflt", "chld", "cont", "stop", "stp", "ttin", "ttou", "urg",
    "xcpu", "xfsz", "vtalrm", "prof", "winch", "io", "pwr", "sys", "emt", "exists"]

/-- The offsets of real-time signals are 0 to 32, without leading zeros. -/
def isRealTime (name : String) : Bool :=
  (List.range 33).any fun offset => name == "rtmin+" ++ toString offset

def isName (name : String) : Bool := names.contains name || isRealTime name

def implied (word : String) : List String :=
  if ["r", "read", "receive"].contains word then ["receive"]
  else if ["w", "write", "send"].contains word then ["send"]
  else if ["rw", "wr"].contains word then ["receive", "send"]
  else []

def read? : List Char → Option (Statement (List Char)) := keywordStatement "signal" notNewline

def checkSignals : Extent (SortedSet String) → Checked Unit
  | .all => .ok ()
  | .only signals =>
    if signals.isEmpty then reject .noSignals
    else match signals.toList.find? fun name => !isName name with
      | some name => refuse (.badSignal name)
      | none => .ok ()

def make (access : Access) (signals : Extent (SortedSet String)) (peer : Extent Pattern) :
    Checked Signal := do
  access.check .signal accessWords
  checkSignals signals
  return ⟨access, signals, peer⟩

def ofParts (body : List Char) : Checked Signal := do
  let clauses ← Clauses.read body
  let access ← Access.ofWords .signal accessWords clauses.access
  let (names, clauses) ← clauses.take "set"
  let signals := Extent.ofOption (names.map fun value => SortedSet.ofList value.items)
  let (peer, clauses) ← clauses.takePattern "peer"
  clauses.finish "signal"
  make access signals peer

def text (signal : Signal) : String :=
  "signal" ++ signal.access.text ++
    signal.signals.text (fun names => " set=" ++ Access.listText names) ++
    signal.peer.conditionText "peer"

def covers (signal other : Signal) : Bool :=
  signal.access.covers implied other.access &&
    signal.signals.coversBy (fun mine theirs => theirs.subset mine) other.signals &&
    signal.peer.coversBy Pattern.covers other.peer

def same (signal other : Signal) : Bool :=
  signal.access == other.access && signal.signals == other.signals &&
    signal.peer.sameBy Pattern.same other.peer

end Signal

/-! ## User namespaces -/

structure Userns where
  access : Access
  deriving DecidableEq

namespace Userns

def accessWords : List String := ["create"]

def read? : List Char → Option (Statement (List Char)) := keywordStatement "userns" notNewline

def make (access : Access) : Checked Userns :=
  (access.check .userns accessWords).map fun _ => ⟨access⟩

def ofParts (body : List Char) : Checked Userns := do
  make (← Access.ofWords .userns accessWords ((words body).map String.ofList))

def text (userns : Userns) : String := "userns" ++ userns.access.text

def covers (userns other : Userns) : Bool :=
  userns.access.coversBy (fun mine theirs => theirs.subset mine) other.access

end Userns

end ArmorPolicy
