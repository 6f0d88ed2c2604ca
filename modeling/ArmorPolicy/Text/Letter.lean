import ArmorPolicy.Text.LetterTable

/-!
# Letters, digits and word characters

Variable names inside globs are made of alphanumeric characters, names on the left of an assignment
of word characters.  Both classes are decided by a rule on ASCII and by tables above it.
-/

namespace ArmorPolicy.Text

/-- Membership of a code point in a table of runs, counted from the end of the run before. -/
def inTable : List Nat → Nat → Bool
  | passed :: length :: runs, n =>
    passed ≤ n && (n < passed + length || inTable runs (n - (passed + length)))
  | _, _ => false

def isAsciiLetter (c : Char) : Bool := c.isAlpha

def isAsciiDigit (c : Char) : Bool := c.isDigit

/-- Alphabetic or of a numeric category. -/
def isAlphanumeric (c : Char) : Bool :=
  if c.toNat < 0x80 then c.isAlphanum
  else inTable LetterTable.shared c.toNat || inTable LetterTable.alphanumeric c.toNat

/-- Alphabetic, a decimal digit, a mark, a connector or a join control. -/
def isWord (c : Char) : Bool :=
  if c.toNat < 0x80 then c.isAlphanum || c == '_'
  else inTable LetterTable.shared c.toNat || inTable LetterTable.word c.toNat

end ArmorPolicy.Text
