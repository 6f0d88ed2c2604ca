import ArmorPolicy.Rule.Basic

/-!
# Severity of rules

Capabilities and file accesses are ranked by a table that is given from outside.
-/

namespace ArmorPolicy

inductive Severity where
  | rank (level : Nat)
  | unknown
  | unrated
  deriving DecidableEq, Repr

/-- The ranks of accesses, by path and permission string, and of capabilities. -/
structure SeverityTable where
  pathRank : String → String → Option Nat
  capabilityRank : String → Option Nat

namespace Severity

def ofRank : Option Nat → Severity
  | some level => .rank level
  | none => .unknown

/-- The higher severity; any rank is above an unknown one. -/
def max : Severity → Severity → Severity
  | .rank a, .rank b => .rank (Nat.max a b)
  | .rank a, _ => .rank a
  | _, .rank b => .rank b
  | .unknown, _ => .unknown
  | _, .unknown => .unknown
  | .unrated, .unrated => .unrated

end Severity

/-- The entry under which the right to all capabilities is ranked. -/
def Capability.allEntry : String := "__ALL__"

def Capability.severity (table : SeverityTable) (capability : Capability) : Severity :=
  match capability.names with
  | .all => .ofRank (table.capabilityRank allEntry)
  | .only names =>
    names.toList.foldl (fun severity name => severity.max (.ofRank (table.capabilityRank name)))
      .unknown

/-- The rule for all files is ranked as every access to every path. -/
def File.severity (table : SeverityTable) (file : File) : Severity :=
  let path := (file.path.value?.map Pattern.glob).getD "/**"
  let access := if file.permissions.isAll then "mrwlkix" else file.accessText
  .ofRank (table.pathRank path access)

def Rule.severity (table : SeverityTable) (rule : Rule) : Severity :=
  match rule.body with
  | .capability capability => capability.severity table
  | .file file => file.severity table
  | _ => .unrated

end ArmorPolicy
