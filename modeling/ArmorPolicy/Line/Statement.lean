import ArmorPolicy.Line.Basic
import ArmorPolicy.Rule.Base

/-!
# Statements with modifiers

Reading a statement gives its modifiers, its comment and the parts that are particular to its kind.
-/

namespace ArmorPolicy.Line

open Text

structure Statement (α : Type) where
  audit : Bool
  decision : Decision
  comment : String
  parts : α

def Statement.base {α : Type} (statement : Statement α) (line : List Char) : RuleBase where
  audit := statement.audit
  deny := statement.decision == .deny
  allowWord := statement.decision == .allow
  comment := statement.comment
  written := some (String.ofList (trim line))

/-- The ways to read `allow` or `deny`: first with the word, then without. -/
def decisionChoices (s : List Char) : List (Decision × List Char) :=
  match afterWord? "allow" s, afterWord? "deny" s with
  | some rest, _ => [(.allow, rest), (.unstated, s)]
  | none, some rest => [(.deny, rest), (.unstated, s)]
  | none, none => [(.unstated, s)]

/-- Reads a statement that may start with modifiers; words that could be modifiers are read as such
if the rest of the line then fits. -/
def withModifiers {α : Type} (read : List Char → Option (α × String)) (line : List Char) :
    Option (Statement α) :=
  (optionalWord "audit" (trimStart line)).findSome? fun (audit, s) =>
    (decisionChoices s).findSome? fun (decision, s) =>
      (read s).map fun (parts, comment) => ⟨audit, decision, comment, parts⟩

def withoutModifiers {α : Type} (read : List Char → Option (α × String)) (line : List Char) :
    Option (Statement α) :=
  (read (trimStart line)).map fun (parts, comment) => ⟨false, .unstated, comment, parts⟩

def keywordStatement (word : String) (allowed : Char → Bool) (line : List Char) :
    Option (Statement (List Char)) :=
  withModifiers (fun s => (after? word s).bind (body? allowed)) line

end ArmorPolicy.Line
