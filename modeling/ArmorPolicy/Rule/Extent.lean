/-!
# Fields that may be left out

A field that a rule does not state covers everything.
-/

namespace ArmorPolicy

inductive Extent (α : Type) where
  | all
  | only (value : α)
  deriving DecidableEq, Repr

namespace Extent

variable {α : Type}

def isAll : Extent α → Bool
  | .all => true
  | .only _ => false

def value? : Extent α → Option α
  | .all => none
  | .only value => some value

def ofOption : Option α → Extent α
  | none => .all
  | some value => .only value

/-- Everything covers all values and is covered by itself only; `covers` decides between values. -/
def coversBy (covers : α → α → Bool) : Extent α → Extent α → Bool
  | .all, _ => true
  | .only _, .all => false
  | .only mine, .only theirs => covers mine theirs

def sameBy (same : α → α → Bool) : Extent α → Extent α → Bool
  | .all, .all => true
  | .only mine, .only theirs => same mine theirs
  | _, _ => false

/-- The text of a value, and no text for everything. -/
def text (write : α → String) : Extent α → String
  | .all => ""
  | .only value => write value

end Extent

end ArmorPolicy
