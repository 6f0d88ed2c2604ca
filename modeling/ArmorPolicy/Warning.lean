import ArmorPolicy.Rule.Basic

/-!
# Warnings

What is accepted and yet looks like a mistake.
-/

namespace ArmorPolicy

inductive Warning where
  | unknownCapability (name : String)
  | unknownFlag (flag : String)
  | changeHatIgnored (hat file : String) (line : Nat)
  deriving DecidableEq, Repr

def Warning.message : Warning → String
  | .unknownCapability name => "Unknown capability name | name: " ++ name
  | .unknownFlag flag => "Unknown profile flag | flag: " ++ flag
  | .changeHatIgnored hat file line =>
    "Ignoring no longer supported change hat declaration | hat: ^" ++ hat ++ " | file: " ++
      file ++ " | line: " ++ toString line

def Rule.warnings (rule : Rule) : List Warning :=
  match rule.body with
  | .capability capability => capability.unknownNames.map .unknownCapability
  | _ => []

end ArmorPolicy
