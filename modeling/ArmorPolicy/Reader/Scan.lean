import ArmorPolicy.Config.Basic
import ArmorPolicy.Reader.State

/-!
# Reading a text line by line

Empty lines are passed over.  A line that ends no statement is joined with the next one.  Faults
get the place at which they were found.  How included files are read is left to a parameter;
reading goes on in a session, which remembers files that were read before and collects warnings,
also when reading fails.
-/

namespace ArmorPolicy

open Text

/-- What outlasts the reading of one text. -/
structure Session where
  config : Config := {}
  /-- The included files that have been read, by the components of their paths. -/
  memo : SortedMap (List String) Fragment := .empty
  inProgress : List (List String) := []
  warnings : List Warning := []
  deriving DecidableEq

/-- Reading can fail and leaves its traces in the session in either case. -/
abbrev Reading (α : Type) : Type := ExceptT PolicyError (StateM Session) α

namespace Reading

def ofChecked {α : Type} (result : Checked α) : Reading α := ExceptT.mk (pure result)

def warn (warnings : List Warning) : Reading Unit :=
  modify fun session => { session with warnings := session.warnings ++ warnings }

def located {α : Type} (file : String) (line : Nat) (reading : Reading α) : Reading α :=
  ExceptT.adapt (fun error => error.located file line) reading

end Reading

namespace Reader

def warnFlags (flags : Option String) : Reading Unit :=
  match flags with
  | some flags => Reading.warn (Flags.warnings (Flags.ofText flags))
  | none => pure ()

def pendingPreview : Nat := 80

def unknownPreview : Nat := 120

/-- Reads a rule; the file that it includes is read first. -/
def readRule (kind : TextKind) (resolve : Inclusion → Reading Unit) (state : ReaderState)
    (rule : Rule) : Reading ReaderState := do
  Reading.warn rule.warnings
  match rule.body with
  | .inclusion inclusion => resolve inclusion
  | _ => pure ()
  Reading.ofChecked ({ state with comments := [] }.place kind rule)

def readStatement (kind : TextKind) (resolve : Inclusion → Reading Unit) (state : ReaderState)
    (line : List Char) (start : Nat) : Reading ReaderState :=
  match Rule.parse? (String.ofList line) with
  | some (.ok rule) => readRule kind resolve state rule
  | some (.error error) => throw error
  | none =>
    if LineForm.commaEnds line then
      throw (.fault (.unknownLine (String.ofList (preview unknownPreview line))))
    else pure { state with pending := some (LineForm.withoutComment line, start) }

/-- Reads one line, joined with what was pending, of a statement that started on line `start`. -/
def readLine (kind : TextKind) (resolve : Inclusion → Reading Unit) (state : ReaderState)
    (line : List Char) (start : Nat) : Reading ReaderState := do
  if state.skipping ≠ 0 then return state.skipLine line
  match LineForm.ofLine line with
  | .header header =>
    let state ← Reading.ofChecked (state.openProfile kind header)
    warnFlags header.flags
    return state
  | .hat hat =>
    let state ← Reading.ofChecked (state.openHat kind hat)
    warnFlags hat.flags
    return state
  | .closing =>
    let session ← get
    Reading.ofChecked (state.close session.config.hatsFor)
  | .conditional => return { state with skipping := 1 }
  | .alternative => throw (.fault .strayElse)
  | .changeHat hat =>
    if state.stack.isEmpty && kind = .profiles then throw (.fault .changeHatOutside)
    Reading.warn [.changeHatIgnored hat state.filename start]
    return state
  | .comment => return state.addComment kind line
  | .statement => readStatement kind resolve state line start

/-- The line to read next: what was pending comes first. -/
def joined (state : ReaderState) (line : List Char) (number : Nat) : List Char × Nat :=
  match state.pending with
  | some (statement, start) => (statement ++ ' ' :: line, start)
  | none => (line, number)

def readLines (kind : TextKind) (resolve : Inclusion → Reading Unit) :
    Nat → List (List Char) → ReaderState → Reading ReaderState
  | _, [], state => pure state
  | number, line :: rest, state => do
      let line := trim line
      if line.isEmpty then readLines kind resolve (number + 1) rest state
      else
        let (line, start) := joined state line number
        let state ← Reading.located state.filename number
          (readLine kind resolve { state with pending := none } line start)
        readLines kind resolve (number + 1) rest state

def finish (state : ReaderState) (lastLine : Nat) : Checked ReaderState :=
  let fail (fault : PolicyFault) (line : Nat) : Checked ReaderState :=
    .error ((PolicyError.fault fault).located state.filename line)
  match state.pending with
  | some (statement, start) =>
    fail (.unterminatedStatement (String.ofList (preview pendingPreview statement))) start
  | none =>
    if state.skipping ≠ 0 then fail .endInsideConditional lastLine
    else match state.stack with
      | inner :: _ => fail (.endInsideProfile inner.scope.fullName) lastLine
      | [] => .ok state

def read (kind : TextKind) (resolve : Inclusion → Reading Unit) (filename text : String) :
    Reading ReaderState := do
  let lines := lines text.toList
  let state ← readLines kind resolve 1 lines { filename }
  Reading.ofChecked (finish state lines.length)

end Reader

end ArmorPolicy
