import ArmorPolicy.Text.Letter

/-!
# Character classes

The text between the brackets of `[...]` names a set of characters: single characters, ranges, and
unions of them combined from left to right by intersection `&&`, difference `--` and symmetric
difference `~~`.  A leading `^` takes the complement.  A backslash makes the next character stand
for itself.  A range that runs backwards makes the class, and any glob with it, meaningless.
-/

namespace ArmorPolicy.Glob

/-- A character inside brackets; an escaped one never acts as an operator. -/
structure ClassChar where
  char : Char
  escaped : Bool
  deriving DecidableEq, Repr

structure CharRange where
  first : Char
  last : Char
  deriving DecidableEq, Repr

def CharRange.contains (range : CharRange) (c : Char) : Bool := range.first ≤ c && c ≤ range.last

inductive SetOp where
  | intersection
  | difference
  | symmetricDifference
  deriving DecidableEq, Repr

/-- Membership in the combination of two sets, from membership in each. -/
def SetOp.combine : SetOp → Bool → Bool → Bool
  | .intersection, a, b => a && b
  | .difference, a, b => a && !b
  | .symmetricDifference, a, b => a != b

/-- A union of ranges, followed by operators that combine it with further unions. -/
structure CharClass where
  negated : Bool
  ranges : List CharRange
  combined : List (SetOp × List CharRange)
  deriving DecidableEq, Repr

namespace CharClass

def single (c : Char) : CharClass := { negated := false, ranges := [⟨c, c⟩], combined := [] }

def inRanges (ranges : List CharRange) (c : Char) : Bool := ranges.any fun range => range.contains c

def contains (cls : CharClass) (c : Char) : Bool :=
  let inside := cls.combined.foldl
    (fun member operand => operand.1.combine member (inRanges operand.2 c))
    (inRanges cls.ranges c)
  inside != cls.negated

/-- The members of a class: ranges and operators, in the order in which they are written. -/
inductive Member where
  | range (range : CharRange)
  | operator (op : SetOp)
  deriving DecidableEq, Repr

def Member.single (c : Char) : Member := .range ⟨c, c⟩

/-- Two equal plain characters in a row that act as an operator. -/
def operator? : ClassChar → ClassChar → Option SetOp
  | ⟨'&', false⟩, ⟨'&', false⟩ => some .intersection
  | ⟨'-', false⟩, ⟨'-', false⟩ => some .difference
  | ⟨'~', false⟩, ⟨'~', false⟩ => some .symmetricDifference
  | _, _ => none

/-- Reads the members of a class; none when a range runs backwards.  A dash stands between the ends
of a range unless it is the last character or another dash follows. -/
def members? : List ClassChar → Option (List Member)
  | [] => some []
  | [a] => some [.single a.char]
  | a :: b :: rest =>
    match operator? a b with
    | some op => (members? rest).map (Member.operator op :: ·)
    | none =>
      match rest with
      | [] => (members? [b]).map (Member.single a.char :: ·)
      | c :: rest =>
        if b = ⟨'-', false⟩ ∧ c ≠ ⟨'-', false⟩ then
          if a.char ≤ c.char then
            (members? rest).map (Member.range ⟨a.char, c.char⟩ :: ·)
          else none
        else (members? (b :: c :: rest)).map (Member.single a.char :: ·)

def push (cls : CharClass) : Member → CharClass
  | .operator op => { cls with combined := cls.combined ++ [(op, [])] }
  | .range range =>
    match cls.combined.getLast? with
    | none => { cls with ranges := cls.ranges ++ [range] }
    | some (op, ranges) =>
      { cls with combined := cls.combined.dropLast ++ [(op, ranges ++ [range])] }

/-- Splits off the characters that are literal because they come first: any number of dashes, or
else one closing bracket. -/
def leading : List ClassChar → List ClassChar × List ClassChar
  | ⟨']', false⟩ :: rest => ([⟨']', false⟩], rest)
  | chars => chars.span (· = ⟨'-', false⟩)

def ofChars? (chars : List ClassChar) : Option CharClass :=
  let negated := chars.head? = some ⟨'^', false⟩
  let (first, rest) := leading (if negated then chars.drop 1 else chars)
  (members? rest).map fun members =>
    members.foldl push
      { negated := negated, ranges := first.map fun c => ⟨c.char, c.char⟩, combined := [] }

end CharClass

/-- The text of a class inside a regular expression: the same text, with every opening bracket
escaped and no escapes of letters and digits. -/
def classRegex : List Char → List Char
  | [] => []
  | '\\' :: c :: rest =>
    if Text.isAlphanumeric c then c :: classRegex rest else '\\' :: c :: classRegex rest
  | '[' :: rest => '\\' :: '[' :: classRegex rest
  | c :: rest => c :: classRegex rest

end ArmorPolicy.Glob
