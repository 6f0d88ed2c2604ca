import ArmorPolicy.Config.Reader
import ArmorPolicy.Include.Session
import ArmorPolicy.Registry

/-!
# Normalising a profile file

Reads a file with all that it includes, checks that profiles and variables do not contradict each
other, removes rules that others cover, and lists the rest in canonical form.
-/

namespace ArmorPolicy

structure NormalizeOptions where
  profile : String
  profileDir : Option String := none
  configFile : Option String := none
  deriving DecidableEq, Repr

namespace NormalizeOptions

/-- The profile file, then the profile directory, then the file of the configuration; what
follows is passed over. -/
def ofArguments? : List String → Option NormalizeOptions
  | [] => none
  | profile :: rest => some { profile, profileDir := rest[0]?, configFile := rest[1]? }

def config (options : NormalizeOptions) (files : FileSystem) : Checked Config := do
  let config ← match options.configFile with
    | some path => Config.ofFile files path
    | none => pure {}
  return match options.profileDir with
    | some dir => { config with profileDir := dir }
    | none => config

end NormalizeOptions

/-- Registers a file and all included files, and checks the variables that the file sees. -/
def checkVariables (session : Session) (files : FileSystem) (file : ParsedFile) :
    Checked MergedVariables := do
  let registry ← Registry.addParsed {} file
  let registry ← session.fragments.foldlM
    (fun registry (_, fragment) => registry.addFragment fragment) registry
  registry.mergedVariables file.filename
    (session.includedFiles files file.preamble.ruleset.inclusions)

/-- A file without the rules that others cover. -/
def pruned (session : Session) (files : FileSystem) (file : ParsedFile) : ParsedFile :=
  { file with
    profiles := file.profiles.map fun profile =>
      (profile.dedup (some (session.includedRules files profile.scope.rules.inclusions))).1 }

def normalize (files : FileSystem) (options : NormalizeOptions) : Checked (List String) := do
  let config ← options.config files
  let (result, session) := (Reading.file files options.profile).run.run { config }
  let file ← result
  let file := { file with preamble := file.preamble.dedup.1 }
  let _ ← checkVariables session files file
  return (pruned session files file).lines .canonical

end ArmorPolicy
