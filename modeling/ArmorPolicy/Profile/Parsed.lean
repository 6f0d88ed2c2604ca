import ArmorPolicy.Profile.Tree
import ArmorPolicy.Ruleset.Variables

/-!
# What is read from a file

A profile file gives its preamble and its profiles.  Feature set, aliases, variables, booleans and
includes stand outside of profiles, in the preamble, and are shared by all profiles of the file.  An
included file is one scope: it gives the statements that belong to a preamble, and rules.
-/

namespace ArmorPolicy

structure Preamble where
  ruleset : Ruleset := {}
  deriving DecidableEq

namespace Preamble

def order : List RuleKind := [.abi, .aliasing, .assignment, .boolean, .inclusion]

def add (preamble : Preamble) (rule : Rule) : Checked Preamble :=
  if order.contains rule.kind then (preamble.ruleset.define rule).map Preamble.mk
  else refuse (.outsideProfile rule.kind rule.canonical)

/-- Booleans are set only once and do not take part in the removal of covered rules. -/
def dedup (preamble : Preamble) : Preamble × DedupStats :=
  let takesPart (rule : Rule) : Bool := rule.kind != .boolean
  let covers (mine theirs : Rule) : Bool := takesPart mine && mine.coversWith true true theirs
  let kept := irredundant covers preamble.ruleset.rules
  (⟨⟨kept⟩⟩,
    { before := (preamble.ruleset.rules.filter takesPart).length
      internally := preamble.ruleset.rules.length - kept.length })

def lines (layout : Layout) (preamble : Preamble) (depth : Nat) : List String :=
  preamble.ruleset.sections order layout depth

def mergedVariables (preamble : Preamble) : MergedVariables := preamble.ruleset.mergedVariables

end Preamble

structure ParsedFile where
  filename : String
  preamble : Preamble := {}
  /-- The names of the profiles, in the order in which they were read. -/
  profileNames : List String := []
  profiles : List Profile := []
  deriving DecidableEq

structure Fragment where
  filename : String
  preamble : Preamble := {}
  profileNames : List String := []
  rules : Ruleset := {}
  deriving DecidableEq

namespace ParsedFile

def profile? (file : ParsedFile) (name : String) : Option Profile :=
  file.profiles.find? fun profile => profile.scope.name == name

def updateProfile (file : ParsedFile) (name : String) (f : Profile → Profile) : ParsedFile :=
  match file.profiles.span fun profile => profile.scope.name != name with
  | (before, profile :: rest) => { file with profiles := before ++ f profile :: rest }
  | (_, []) => file

/-- The preamble, then the profiles with an empty line between them. -/
def lines (layout : Layout) (file : ParsedFile) : List String :=
  Scope.dropEmptyEnd (file.preamble.lines layout 0 ++
    List.intercalate [""] (file.profiles.map fun profile => profile.lines layout 0))

end ParsedFile

namespace Fragment

def lines (layout : Layout) (fragment : Fragment) (depth : Nat) : List String :=
  fragment.preamble.lines layout depth ++ fragment.rules.scopeLines layout depth

end Fragment

end ArmorPolicy
