import ArmorPolicy.Pattern

/-!
# Configuration

Where included files are looked for, whether they are read at all, and which hats a profile has to
have.
-/

namespace ArmorPolicy

/-- Hats that the profiles of a name must have. -/
structure RequiredHats where
  profileGlob : String
  hats : List String := []
  deriving DecidableEq, Repr

structure Config where
  profileDir : String := "/etc/apparmor.d"
  resolveIncludes : Bool := true
  requiredHats : List RequiredHats := []
  deriving DecidableEq, Repr

/-- A glob that is no pattern is for no profile. -/
def RequiredHats.appliesTo (required : RequiredHats) (name : String) : Bool :=
  match Pattern.ofText required.profileGlob false with
  | .ok pattern => pattern.glob == name || pattern.isMatch name
  | .error _ => false

def Config.hatsFor (config : Config) (name : String) : List String :=
  (config.requiredHats.filter fun required => required.appliesTo name).flatMap RequiredHats.hats

end ArmorPolicy
