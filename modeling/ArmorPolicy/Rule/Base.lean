import ArmorPolicy.Error

/-!
# What all rules have in common

Modifiers, the comment at the end of the line, the text from which a rule was read, and where it
came from.
-/

namespace ArmorPolicy

/-- Whether a rule allows or denies.  A rule without either word allows. -/
inductive Decision where
  | unstated
  | allow
  | deny
  deriving DecidableEq, Repr

def Decision.word : Decision → String
  | .unstated => ""
  | .allow => "allow "
  | .deny => "deny "

inductive Origin where
  | policy
  | logEvent
  deriving DecidableEq, Repr

structure RuleBase where
  audit : Bool := false
  deny : Bool := false
  allowWord : Bool := false
  /-- Empty, or a space and the comment from its sign on. -/
  comment : String := ""
  /-- The statement as it was written, while the rule still says the same. -/
  written : Option String := none
  origin : Origin := .policy
  deriving DecidableEq, Repr

namespace RuleBase

/-- A base from separate flags, which must not contradict each other. -/
def ofFlags (audit deny allow : Bool) (comment : String) : Checked RuleBase :=
  if deny && allow then reject .denyAndAllow
  else
    .ok { audit, deny, allowWord := allow, comment }

def decision (base : RuleBase) : Decision :=
  if base.deny then .deny else if base.allowWord then .allow else .unstated

def modifiers (base : RuleBase) : String :=
  (if base.audit then "audit " else "") ++ base.decision.word

def forbidModifiers (base : RuleBase) (kind : RuleKind) : Checked Unit :=
  if base.audit || base.deny || base.allowWord then refuse (.modifiersForbidden kind) else .ok ()

/-- The statement as written no longer says what the rule says. -/
def touch (base : RuleBase) : RuleBase := { base with written := none }

def setAudit (base : RuleBase) (audit : Bool) : RuleBase :=
  if base.audit = audit then base else { base with audit := audit }.touch

/-- A denying rule loses the word `allow`. -/
def setDeny (base : RuleBase) (deny : Bool) : RuleBase :=
  if base.deny = deny then base
  else { base with deny, allowWord := base.allowWord && !deny }.touch

/-- Coverage between modifiers.  Nothing that allows covers a denial, and nothing unaudited
covers an audited rule; the flags ask for equal decisions and equal audits. -/
def covers (base other : RuleBase) (checkDecision checkAudit : Bool) : Bool :=
  !(checkDecision && base.deny != other.deny) && !(other.deny && !base.deny) &&
    !(checkAudit && base.audit != other.audit) && !(other.audit && !base.audit)

/-- Equality of modifiers; the strict one also compares the word `allow`, the comment and the text
as written. -/
def same (base other : RuleBase) (strict : Bool) : Bool :=
  base.audit == other.audit && base.deny == other.deny &&
    (!strict || (base.allowWord == other.allowWord && base.comment == other.comment &&
      base.written == other.written))

end RuleBase

end ArmorPolicy
