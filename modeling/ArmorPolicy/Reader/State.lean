import ArmorPolicy.Line.Form
import ArmorPolicy.Profile.Parsed

/-!
# The state of reading a text

The scopes that are open lie on a stack.  Finished profiles, their names and the rules of the preamble
are collected on the way.
-/

namespace ArmorPolicy

/-- What kind of text is read: profiles, or one scope that other texts include. -/
inductive TextKind where
  | profiles
  | fragment
  deriving DecidableEq, Repr

structure ReaderState where
  filename : String
  preamble : Preamble := {}
  finished : List Profile := []
  /-- The names of the finished profiles. -/
  names : List String := []
  /-- The open scopes, innermost first. -/
  stack : List Profile := []
  rules : Ruleset := {}
  comments : List String := []
  /-- A statement that has not ended yet, and the line on which it started. -/
  pending : Option (List Char × Nat) := none
  skipping : Nat := 0
  deriving DecidableEq

namespace ReaderState

/-! ## Opening -/

def splitDoubleSlash? : List Char → Option (List Char × List Char)
  | [] => none
  | '/' :: '/' :: rest => some ([], rest)
  | c :: rest => (splitDoubleSlash? rest).map fun (before, behind) => (c :: before, behind)

/-- The scope that a header opens outside of all profiles: a profile, or the hat of a profile that
has been read before. -/
def topScope (state : ReaderState) (name : String) : Checked Scope :=
  match splitDoubleSlash? name.toList with
  | none => .ok { name, kind := .profile, filename := state.filename }
  | some (parent, hat) =>
    let parent := String.ofList parent
    let hat := String.ofList hat
    if state.finished.any fun profile => profile.scope.name == parent then
      .ok { name := hat, kind := .hat, filename := state.filename, external := true,
            parent := some parent }
    else refuse (.externalHatBeforeParent hat parent)

def innerScope (state : ReaderState) (outer : Scope) (header : HeaderLine) : Checked Scope :=
  if !header.profileWord then refuse (.profileKeywordMissing outer.fullName)
  else if outer.kind ≠ .profile then refuse (.profileInsideChild outer.fullName)
  else .ok { name := header.name, kind := .child, filename := state.filename }

def dressed (scope : Scope) (header : HeaderLine) : Checked Scope := do
  let attachment ← match header.attachment with
    | none => pure none
    | some glob => (Pattern.ofText glob true).map some
  return { scope with
    profileWord := header.profileWord
    attachment
    xattrs := header.xattrs
    flags := (header.flags.map Flags.ofText).getD .empty
    headerComment := header.comment }

def openedScope (state : ReaderState) (header : HeaderLine) : Checked Scope :=
  match state.stack with
  | [] => state.topScope header.name
  | outer :: _ => state.innerScope outer.scope header

/-- Opens a profile, a child profile or a hat that stands outside of its parent.  Every header has a
name, so that an empty one need not be refused. -/
def openProfile (kind : TextKind) (state : ReaderState) (header : HeaderLine) :
    Checked ReaderState :=
  if kind = .fragment then refuse .profileInInclude
  else do
    let scope ← dressed (← state.openedScope header) header
    let initialComment := if state.stack.isEmpty then state.comments else []
    let opened : Profile := { scope := { scope with initialComment } }
    return { state with stack := opened :: state.stack, comments := [] }

def openHat (kind : TextKind) (state : ReaderState) (line : HatLine) : Checked ReaderState :=
  match kind, state.stack with
  | .fragment, _ | _, [] => refuse .hatOutside
  | .profiles, outer :: _ =>
    if outer.scope.kind ≠ .profile then refuse (.hatInsideChild outer.scope.fullName)
    else if outer.inner.contains line.name then
      refuse (.duplicateHat line.name outer.scope.name)
    else
      let hat : Scope :=
        { name := line.name, kind := .hat, filename := state.filename
          flags := (line.flags.map Flags.ofText).getD .empty, headerComment := line.comment }
      .ok { state with stack := { scope := hat } :: state.stack }

/-! ## Closing -/

/-- Gives a hat that stands outside to its parent. -/
def giveToParent (parent : String) (hat : Profile) : List Profile → Checked (List Profile)
  | [] => refuse (.parentMissing parent)
  | profile :: rest =>
    if profile.scope.name = parent then (profile.addInner hat).map (· :: rest)
    else (giveToParent parent hat rest).map (profile :: ·)

/-- Finishes a profile, which gets the hats that it must have. -/
def finishProfile (hatsFor : String → List String) (state : ReaderState) (profile : Profile) :
    Checked ReaderState :=
  let name := profile.scope.name
  if state.finished.any fun known => known.scope.name == name then refuse (.profileTwice name)
  else
    let profile := (hatsFor name).foldl Profile.ensureHat profile
    .ok { state with
      stack := [], finished := state.finished ++ [profile], names := state.names ++ [name] }

def close (hatsFor : String → List String) (state : ReaderState) : Checked ReaderState :=
  let state := { state with comments := [] }
  match state.stack with
  | [] => refuse .strayEnd
  | inner :: outer :: below =>
    (outer.addInner inner).map fun outer => { state with stack := outer :: below }
  | [profile] =>
    if profile.scope.external then
      (giveToParent (profile.scope.parent.getD "") profile state.finished).map
        fun finished => { state with stack := [], finished }
    else state.finishProfile hatsFor profile

/-! ## Comments and rules -/

def lastModified : List Char := "# Last Modified:".toList

/-- Keeps a comment line that may belong to the next profile.  The date of the last change is not
kept. -/
def addComment (kind : TextKind) (state : ReaderState) (line : List Char) : ReaderState :=
  if kind = .fragment || !state.stack.isEmpty || lastModified.isPrefixOf line then state
  else { state with comments := state.comments ++ [String.ofList line] }

/-- Kinds that belong to the preamble of a fragment. -/
def fragmentPreamble (kind : RuleKind) : Bool := kind.preambleOnly || kind == .aliasing

def addToScope (scope : Scope) (rule : Rule) : Checked Scope :=
  if rule.kind = .assignment || rule.kind = .boolean then
    refuse (.definitionInProfile rule.kind scope.fullName)
  else scope.addRule rule

def place (kind : TextKind) (state : ReaderState) (rule : Rule) : Checked ReaderState :=
  match kind, state.stack with
  | .fragment, _ =>
    if fragmentPreamble rule.kind then
      (state.preamble.add rule).map fun preamble => { state with preamble }
    else (state.rules.addInside rule).map fun rules => { state with rules }
  | .profiles, [] =>
    (state.preamble.add rule).map fun preamble => { state with preamble }
  | .profiles, inner :: below =>
    (addToScope inner.scope rule).map fun scope =>
      { state with stack := { inner with scope } :: below }

/-! ## Conditional blocks -/

/-- A line of a conditional block only opens or closes blocks. -/
def skipLine (state : ReaderState) (line : List Char) : ReaderState :=
  if line.head? == some '#' || LineForm.isAlternative line then state
  else if LineForm.isClosing line then { state with skipping := state.skipping - 1 }
  else if LineForm.opensBlock line then { state with skipping := state.skipping + 1 }
  else state

/-! ## Results -/

def parsed (state : ReaderState) : ParsedFile :=
  { filename := state.filename, preamble := state.preamble, profileNames := state.names
    profiles := state.finished }

def fragment (state : ReaderState) : Fragment :=
  { filename := state.filename, preamble := state.preamble, profileNames := state.names
    rules := state.rules }

end ReaderState

end ArmorPolicy
