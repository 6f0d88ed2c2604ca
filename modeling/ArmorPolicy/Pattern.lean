import ArmorPolicy.Error
import ArmorPolicy.Glob.Regex
import ArmorPolicy.Expression

/-!
# Patterns in rules

A pattern is the glob of a rule's field.  One made for a logged event keeps the literal text of the
event, which coverage then looks at.
-/

namespace ArmorPolicy

structure Pattern where
  glob : String
  literal : Option String
  deriving DecidableEq, Repr

namespace Pattern

/-- A pattern of a policy text.  A path has to start with a slash or a variable. -/
def ofText (glob : String) (isPath : Bool) : Checked Pattern :=
  match glob.toList with
  | [] => refuse .emptyPattern
  | c :: _ =>
    if isPath && c != '/' && c != '@' then refuse (.relativePattern glob)
    else .ok ⟨glob, none⟩

def ofLogEvent (literal : String) (isPath : Bool) : Checked Pattern :=
  (ofText (String.ofList (Glob.escape literal.toList)) isPath).map fun pattern =>
    { pattern with literal := some literal }

def regexSource (pattern : Pattern) : String := (Glob.ofText pattern.glob.toList).regex

/-- A text is matched by the regular expression.  One that cannot be read matches nothing. -/
def isMatch (pattern : Pattern) (text : String) : Bool :=
  match Expression.ofText? pattern.regexSource.toList with
  | some e => e.isMatch text.toList
  | none => false

/-- The text by which other patterns are judged to cover this one. -/
def sample (pattern : Pattern) : String := pattern.literal.getD pattern.glob

/-- A pattern covers another one with the same glob, or one whose sample it matches. -/
def covers (pattern other : Pattern) : Bool :=
  pattern.glob == other.glob || pattern.isMatch other.sample

def same (pattern other : Pattern) : Bool := pattern.glob == other.glob

def order (pattern other : Pattern) : Ordering := compare pattern.glob other.glob

end Pattern

end ArmorPolicy
