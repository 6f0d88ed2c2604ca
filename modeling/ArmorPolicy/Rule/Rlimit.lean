import ArmorPolicy.Line.Statement
import ArmorPolicy.Text.Letter

/-!
# Resource limits

`set rlimit RESOURCE <= VALUE,` bounds a resource.  Values are compared in the smallest unit of the
resource: bytes, microseconds, counts, or the nice level.
-/

namespace ArmorPolicy

open Text Line

/-- A value in the smallest unit of its resource. -/
inductive LimitValue where
  | infinity
  | amount (n : Nat)
  | nice (level : Int)
  deriving DecidableEq, Repr

structure Rlimit where
  resource : String
  value : String
  limit : LimitValue
  deriving DecidableEq, Repr

namespace Rlimit

inductive Measure where
  | size
  | count
  | time
  | nice
  deriving DecidableEq, Repr

def sizes : List String := ["fsize", "data", "stack", "core", "rss", "as", "memlock", "msgqueue"]

def counts : List String := ["ofile", "nofile", "locks", "sigpending", "nproc", "rtprio"]

def times : List String := ["cpu", "rttime"]

def measure? (resource : String) : Option Measure :=
  if sizes.contains resource then some .size
  else if counts.contains resource then some .count
  else if times.contains resource then some .time
  else if resource == "nice" then some .nice
  else none

def sizeFactor? (unit : String) : Option Nat :=
  if unit == "" then some 1
  else if unit == "K" || unit == "KB" then some 1024
  else if unit == "M" || unit == "MB" then some (1024 * 1024)
  else if unit == "G" || unit == "GB" then some (1024 * 1024 * 1024)
  else none

def timeFactor? (unit : String) : Option Nat :=
  if unit == "us" then some 1
  else if unit == "ms" then some 1000
  else if unit == "" || unit == "s" || unit == "sec" || unit == "seconds" then some 1000000
  else if unit == "min" || unit == "minutes" then some 60000000
  else if unit == "h" || unit == "hours" then some 3600000000
  else if unit == "d" || unit == "days" then some 86400000000
  else if unit == "week" || unit == "weeks" then some 604800000000
  else none

/-- How many of the smallest unit a unit has.  Without a unit, `rttime` counts microseconds and
`cpu` seconds. -/
def factor? (resource : String) (measure : Measure) (unit : String) : Option Nat :=
  match measure with
  | .size => sizeFactor? unit
  | .time => if unit == "" && resource == "rttime" then some 1 else timeFactor? unit
  | .count => if unit == "" then some 1 else none
  | .nice => none

def ofDigits (digits : List Char) : Nat :=
  digits.foldl (fun n c => 10 * n + (c.toNat - '0'.toNat)) 0

/-- Amounts are words of 64 bits. -/
def amountBound : Nat := UInt64.size

def numberAndUnit? (s : List Char) : Option (Nat × String) :=
  let digits := s.takeWhile isAsciiDigit
  let unit := trimStart (s.dropWhile isAsciiDigit)
  if digits.isEmpty || !unit.all isAsciiLetter then none
  else some (ofDigits digits, String.ofList unit)

def signed? (s : List Char) : Option Int :=
  let number (digits : List Char) : Option Nat :=
    if !digits.isEmpty && digits.all isAsciiDigit then some (ofDigits digits) else none
  match s with
  | '+' :: digits => (number digits).map Int.ofNat
  | '-' :: digits => (number digits).map fun n => -Int.ofNat n
  | digits => (number digits).map Int.ofNat

/-- Nice levels lie between -20 and 19. -/
def niceLevel? (s : List Char) : Option Int :=
  (signed? s).filter fun level => -20 ≤ level && level ≤ 19

/-- The value of a limit; none for a value that the resource does not have. -/
def limit? (resource : String) (measure : Measure) (value : String) : Option LimitValue :=
  if value == "infinity" then some .infinity
  else match measure with
    | .nice => (niceLevel? value.toList).map .nice
    | measure =>
      (numberAndUnit? value.toList).bind fun (number, unit) =>
        if number < amountBound then
          (factor? resource measure unit).bind fun factor =>
            if number * factor < amountBound then some (.amount (number * factor)) else none
        else none

def make (base : RuleBase) (resource value : String) : Checked Rlimit := do
  base.forbidModifiers .rlimit
  match measure? resource with
  | none => refuse (.unknownRlimit resource)
  | some measure =>
    let value := trimmed value
    match limit? resource measure value with
    | none => refuse (.badRlimitValue resource value)
    | some limit => return { resource, value, limit }

structure Parts where
  resource : List Char
  value : List Char
  deriving DecidableEq, Repr

def valueChar (c : Char) : Bool := c != ' ' && c != ','

/-- The unit behind a value, with the blanks before it, and the comment.  It may be left out. -/
def unit? (s : List Char) : Option (List Char × String) :=
  let blanks := s.takeWhile isBlank
  let rest := s.dropWhile isBlank
  let letters := rest.takeWhile isAsciiLetter
  let withUnit :=
    if blanks.isEmpty || letters.isEmpty then none
    else (commaEnding? (rest.dropWhile isAsciiLetter)).map
      fun comment => (blanks ++ letters, comment)
  withUnit.or ((commaEnding? s).map ([], ·))

def value? (s : List Char) : Option (List Char × String) :=
  (longest? isBlank (longestPart? valueChar unit?) s).map fun (_, number, unit, comment) =>
    (number ++ unit, comment)

def read? : List Char → Option (Statement Parts) :=
  withoutModifiers fun s =>
    ((afterWord? "set" s).bind (afterWord? "rlimit")).bind fun s =>
      match s.takeWhile (fun c => c.isLower) with
      | [] => none
      | resource =>
        (after? "<=" (trimStart (s.dropWhile fun c => c.isLower))).bind fun s =>
          (value? s).map fun (value, comment) => (⟨resource, value⟩, comment)

def ofParts (base : RuleBase) (parts : Parts) : Checked Rlimit :=
  make base (String.ofList parts.resource) (String.ofList parts.value)

def text (rlimit : Rlimit) : String :=
  "set rlimit " ++ rlimit.resource ++ " <= " ++ rlimit.value

/-- A higher amount covers a lower one, a lower nice level a higher one. -/
def limitCovers : LimitValue → LimitValue → Bool
  | .infinity, _ => true
  | _, .infinity => false
  | .nice mine, .nice theirs => mine ≤ theirs
  | .amount mine, .amount theirs => theirs ≤ mine
  | _, _ => false

def covers (rlimit other : Rlimit) : Bool :=
  rlimit.resource == other.resource && limitCovers rlimit.limit other.limit

def same (rlimit other : Rlimit) : Bool :=
  rlimit.resource == other.resource && rlimit.limit == other.limit

end Rlimit

end ArmorPolicy
