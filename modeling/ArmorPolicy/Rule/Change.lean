import ArmorPolicy.Rule.Basic

/-!
# Changing rules

A rule that changes what it says no longer has the text from which it was read.  Each call looks at the
rule before it changes anything.
-/

namespace ArmorPolicy

/-- Changing a rule can fail.  What has been changed by then stays changed. -/
abbrev Changing (α : Type) : Type := ExceptT PolicyError (StateM Rule) α

namespace Changing

def ofChecked {α : Type} (result : Checked α) : Changing α := ExceptT.mk (pure result)

/-- What a change gives, and the rule that it leaves, whether it succeeds or fails. -/
def outcome {α : Type} (changing : Changing α) (rule : Rule) : Checked α × Rule :=
  (ExceptT.run changing).run rule

def after (changing : Changing Unit) (rule : Rule) : Checked Rule :=
  match changing.outcome rule with
  | (.ok _, rule) => .ok rule
  | (.error error, _) => .error error

def setAudit (audit : Bool) : Changing Unit :=
  modify fun rule => { rule with base := rule.base.setAudit audit }

def setDeny (deny : Bool) : Changing Unit :=
  modify fun rule => { rule with base := rule.base.setDeny deny }

/-! ## File rules -/

/-- The statement as written no longer says what the rule says. -/
def touch : Changing Unit := modify fun rule => { rule with base := rule.base.touch }

def putFile (file : File) : Changing Unit := modify fun rule => { rule with body := .file file }

/-- Changes a file rule and leaves other rules alone. -/
def changeFile (change : File → Changing Unit) : Changing Unit := do
  match (← get).body with
  | .file file => change file
  | _ => return ()

def setOwner (owner : Bool) : Changing Unit :=
  changeFile fun file =>
    if file.owner = owner then return ()
    else do
      putFile { file with owner }
      touch

/-- Puts another path in place; the rule for all files has none to replace. -/
def setPath (path : Pattern) : Changing Unit :=
  changeFile fun file =>
    if file.path.isAll then throw (.misuse .pathOnBareFile)
    else do
      putFile { file with path := .only path }
      touch

/-- Adds permissions by their letters.  Appending and writing may then stand together. -/
def addPermissions (letters : SortedSet Char) : Changing Unit :=
  changeFile fun file => do
    let extra ← ofChecked (FilePermissions.ofLetters letters)
    match file.permissions with
    | .all => return ()
    | .only permissions =>
      let together := permissions.union extra
      putFile { file with permissions := .only together }
      if together.size = permissions.size then return () else touch

/-- Only changes how the rule is written in its canonical form. -/
def setStyle (fileWord permissionsFirst : Bool) : Changing Unit :=
  changeFile fun file => putFile (file.withStyle fileWord permissionsFirst)

end Changing

namespace Rule

def setAudit (rule : Rule) (audit : Bool) : Rule := ((Changing.setAudit audit).outcome rule).2

def setDeny (rule : Rule) (deny : Bool) : Rule := ((Changing.setDeny deny).outcome rule).2

def setOwner (rule : Rule) (owner : Bool) : Checked Rule := (Changing.setOwner owner).after rule

def setPath (rule : Rule) (path : Pattern) : Checked Rule := (Changing.setPath path).after rule

def addPermissions (rule : Rule) (letters : SortedSet Char) : Checked Rule :=
  (Changing.addPermissions letters).after rule

def setStyle (rule : Rule) (fileWord permissionsFirst : Bool) : Checked Rule :=
  (Changing.setStyle fileWord permissionsFirst).after rule

end Rule

end ArmorPolicy
