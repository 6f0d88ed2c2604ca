import ArmorPolicy.Line.Statement
import ArmorPolicy.Rule.Clause

/-!
# Message bus access

A dbus rule names accesses to a bus.  Its conditions are patterns, except for the name of the bus;
the conditions on the other side of a connection stand together in `peer=(name=… label=…)`.
-/

namespace ArmorPolicy

open Text Line

structure Dbus where
  access : Access := .all
  bus : Extent String := .all
  path : Extent Pattern := .all
  name : Extent Pattern := .all
  interface : Extent Pattern := .all
  member : Extent Pattern := .all
  peerName : Extent Pattern := .all
  peerLabel : Extent Pattern := .all
  deriving DecidableEq

namespace Dbus

def accessWords : List String :=
  ["send", "receive", "bind", "eavesdrop", "r", "read", "w", "write", "rw"]

def implied (word : String) : List String :=
  if ["r", "read", "receive"].contains word then ["receive"]
  else if ["w", "write", "send"].contains word then ["send"]
  else if word == "rw" then ["receive", "send"]
  else if ["bind", "eavesdrop"].contains word then [word]
  else []

def read? : List Char → Option (Statement (List Char)) := keywordStatement "dbus" notNewline

/-- Whether a rule is about taking a name on a bus and nothing else. -/
def bindsOnly (access : Access) : Bool :=
  match access with
  | .all => false
  | .only words => words.toList.all (· == "bind")

/-- A rule passes if its accesses are words for the kind and no peer stands with `bind` alone. -/
def checked (dbus : Dbus) : Checked Dbus := do
  dbus.access.check .dbus accessWords
  if bindsOnly dbus.access && !(dbus.peerName.isAll && dbus.peerLabel.isAll) then
    refuse .bindWithPeer
  else return dbus

/-- One condition on the peer: a key and a value that is not empty. -/
def peerCondition (item : String) : Checked (String × ClauseValue) :=
  match upTo? '=' item.toList with
  | some (key, c :: value) => .ok (String.ofList key, .single (String.ofList (c :: value)))
  | _ => refuse (.badPeerCondition item)

def peerOf : Option ClauseValue → Checked (Extent Pattern × Extent Pattern)
  | none => .ok (.all, .all)
  | some value => do
      let conditions ← value.items.mapM peerCondition
      let clauses : Clauses := { conditions }
      let (name, clauses) ← clauses.takePattern "name"
      let (label, clauses) ← clauses.takePattern "label"
      clauses.finish "dbus peer"
      return (name, label)

def busOf : Option ClauseValue → Checked (Extent String)
  | none => .ok .all
  | some (.single bus) => .ok (.only bus)
  | some (.list _) => refuse (.listNotAccepted "bus")

def ofParts (body : List Char) : Checked Dbus := do
  let clauses ← Clauses.read body
  let access ← Access.ofWords .dbus accessWords clauses.access
  let (busValue, clauses) ← clauses.take "bus"
  let bus ← busOf busValue
  let (path, clauses) ← clauses.takePattern "path"
  let (name, clauses) ← clauses.takePattern "name"
  let (interface, clauses) ← clauses.takePattern "interface"
  let (member, clauses) ← clauses.takePattern "member"
  let (peerValue, clauses) ← clauses.take "peer"
  let (peerName, peerLabel) ← peerOf peerValue
  clauses.finish "dbus"
  checked { access, bus, path, name, interface, member, peerName, peerLabel }

def peerText (dbus : Dbus) : String :=
  match dbus.peerName.conditionText "name" ++ dbus.peerLabel.conditionText "label" with
  | "" => ""
  | conditions => " peer=(" ++ String.ofList (trimStart conditions.toList) ++ ")"

def text (dbus : Dbus) : String :=
  "dbus" ++ dbus.access.text ++ dbus.bus.text (fun bus => " bus=" ++ quoteIfNeeded bus) ++
    dbus.path.conditionText "path" ++ dbus.name.conditionText "name" ++
    dbus.interface.conditionText "interface" ++ dbus.member.conditionText "member" ++
    dbus.peerText

def covers (dbus other : Dbus) : Bool :=
  dbus.access.covers implied other.access && dbus.bus.coversBy (· == ·) other.bus &&
    dbus.path.coversBy Pattern.covers other.path && dbus.name.coversBy Pattern.covers other.name &&
    dbus.interface.coversBy Pattern.covers other.interface &&
    dbus.member.coversBy Pattern.covers other.member &&
    dbus.peerName.coversBy Pattern.covers other.peerName &&
    dbus.peerLabel.coversBy Pattern.covers other.peerLabel

def same (dbus other : Dbus) : Bool :=
  dbus.access == other.access && dbus.bus == other.bus &&
    dbus.path.sameBy Pattern.same other.path && dbus.name.sameBy Pattern.same other.name &&
    dbus.interface.sameBy Pattern.same other.interface &&
    dbus.member.sameBy Pattern.same other.member &&
    dbus.peerName.sameBy Pattern.same other.peerName &&
    dbus.peerLabel.sameBy Pattern.same other.peerLabel

end Dbus

end ArmorPolicy
