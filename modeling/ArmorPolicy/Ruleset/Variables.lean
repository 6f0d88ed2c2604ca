import ArmorPolicy.Data.SortedMap
import ArmorPolicy.Ruleset.Basic

/-!
# Variables of a ruleset

A variable is defined once; values may be added any number of times.  Definitions and additions are
collected apart from each other.
-/

namespace ArmorPolicy

abbrev Bindings : Type := SortedMap String (SortedSet String)

def Bindings.extend (bindings : Bindings) (name : String) (values : SortedSet String) : Bindings :=
  bindings.alter name fun known => (known.getD .empty).union values

/-- Values that are defined, and values that are added. -/
structure MergedVariables where
  defined : Bindings := .empty
  added : Bindings := .empty
  deriving DecidableEq

namespace Ruleset

def assignments (ruleset : Ruleset) : List Assignment :=
  ruleset.rules.filterMap fun rule =>
    match rule.body with
    | .assignment assignment => some assignment
    | _ => none

def settings (ruleset : Ruleset) : List BooleanSetting :=
  ruleset.rules.filterMap fun rule =>
    match rule.body with
    | .boolean setting => some setting
    | _ => none

def boolean? (ruleset : Ruleset) (name : String) : Option Bool :=
  (ruleset.settings.find? fun setting => setting.name == name).map BooleanSetting.value

/-- Adds a rule that may define a variable.  A known variable must not be defined, and a boolean not
be set again. -/
def define (ruleset : Ruleset) (rule : Rule) : Checked Ruleset :=
  match rule.body with
  | .assignment assignment =>
    if assignment.mode = .define &&
        ruleset.assignments.any (fun known => known.name == assignment.name) then
      refuse (.variableRedefined assignment.name assignment.values.toList)
    else .ok (ruleset.add rule)
  | .boolean setting =>
    if ruleset.settings.any fun known => known.name == setting.name then
      refuse (.booleanRedefined setting.name rule.canonical)
    else .ok (ruleset.add rule)
  | _ => .ok (ruleset.add rule)

def collect (merged : MergedVariables) (assignment : Assignment) : MergedVariables :=
  match assignment.mode with
  | .define => { merged with defined := merged.defined.extend assignment.name assignment.values }
  | .append => { merged with added := merged.added.extend assignment.name assignment.values }

def mergedVariables (ruleset : Ruleset) : MergedVariables := ruleset.assignments.foldl collect {}

end Ruleset

end ArmorPolicy
