/-!
# Texts

Texts are read as lists of characters.  A character is blank when it has the Unicode property
White_Space, which fixes what separates words and what is cut off at the ends of a text.  A value with a
space is written between quotation marks, and reading takes a matching pair of marks off again.
Messages quote a statement with its runs of blanks folded to one space, cut off with an ellipsis when
it grows beyond a given number of characters.
-/

namespace ArmorPolicy.Text

/-- What holds of every character of a text, or of some, is decided along the text, not along the
alphabet. -/
instance (priority := 2000) decidableForallMem (p : Char → Prop) [DecidablePred p]
    (s : List Char) : Decidable (∀ c, c ∈ s → p c) :=
  List.decidableBAll p s

instance (priority := 2000) decidableExistsMem (p : Char → Prop) [DecidablePred p]
    (s : List Char) : Decidable (∃ c, c ∈ s ∧ p c) :=
  List.decidableBEx p s

instance (priority := 2000) decidableExistsMemOption (p : Char → Prop) [DecidablePred p]
    (first : Option Char) : Decidable (∃ c, c ∈ first ∧ p c) :=
  Option.decidableExistsMem first

/-- The characters with the Unicode property White_Space. -/
def isBlank (c : Char) : Bool :=
  let n := c.toNat
  if n < 0x80 then n == 0x20 || (9 ≤ n && n ≤ 13)
  else n == 0x85 || n == 0xA0 || n == 0x1680 || (0x2000 ≤ n && n ≤ 0x200A) || n == 0x2028 ||
    n == 0x2029 || n == 0x202F || n == 0x205F || n == 0x3000

def isSolid (c : Char) : Bool := !isBlank c

def trimStart (s : List Char) : List Char := s.dropWhile isBlank

def trimEnd (s : List Char) : List Char := (s.reverse.dropWhile isBlank).reverse

def trim (s : List Char) : List Char := trimEnd (trimStart s)

/-- The pieces of a text between the characters that satisfy `p`, empty pieces included. -/
def splitAt (p : Char → Bool) : List Char → List (List Char)
  | [] => [[]]
  | c :: rest =>
    if p c then [] :: splitAt p rest
    else match splitAt p rest with
      | [] => [[c]]
      | piece :: pieces => (c :: piece) :: pieces

/-- The non-empty pieces between the characters that satisfy `p`. -/
def fields (p : Char → Bool) (s : List Char) : List (List Char) :=
  (splitAt p s).filter fun piece => !piece.isEmpty

def words (s : List Char) : List (List Char) := fields isBlank s

/-- A line loses the carriage return that stood before its newline. -/
def dropCarriageReturn (line : List Char) : List Char :=
  if line.getLast? = some '\r' then line.dropLast else line

/-- The lines of a text.  A newline ends a line, so text after the last newline is a line of its
own only when it is not empty. -/
def lines (s : List Char) : List (List Char) :=
  let pieces := splitAt (· == '\n') s
  let ended := pieces.dropLast.map dropCarriageReturn
  match pieces.getLast? with
  | none => ended
  | some [] => ended
  | some last => ended ++ [last]

/-! ## The same operations on strings -/

def trimmed (s : String) : String := String.ofList (trim s.toList)

def wordsOf (s : String) : List String := (words s.toList).map String.ofList

/-- `pieces` with one space between neighbours. -/
def spaced (pieces : List String) : String := " ".intercalate pieces

/-! ## Quotation marks and indentation -/

/-- Only the space character asks for quotation marks. -/
def quoteIfNeeded (value : String) : String :=
  if value.toList.contains ' ' then "\"" ++ value ++ "\"" else value

/-- Takes off the quotation marks around a text of at least two characters. -/
def stripQuotes (s : List Char) : List Char :=
  match s with
  | '"' :: rest => if rest.getLast? = some '"' then rest.dropLast else s
  | _ => s

def unquoted (value : String) : String := String.ofList (stripQuotes value.toList)

/-- Two spaces for every level of nesting. -/
def indent : Nat → String
  | 0 => ""
  | depth + 1 => "  " ++ indent depth

/-! ## Previews -/

/-- Writes characters while `room` lasts; `gap` says that blanks stand before the next one, which
then takes the room of two characters. -/
def previewFrom (room : Nat) (gap : Bool) : List Char → List Char
  | [] => []
  | c :: rest =>
    if isBlank c then previewFrom room true rest
    else if gap then
      if room < 2 then ['…'] else ' ' :: c :: previewFrom (room - 2) false rest
    else if room < 1 then ['…']
    else c :: previewFrom (room - 1) false rest

/-- The preview of a statement in at most `limit` characters and an ellipsis. -/
def preview (limit : Nat) (s : List Char) : List Char := previewFrom limit false (trim s)

end ArmorPolicy.Text
