import ArmorPolicy.Glob.CharClass

/-!
# Regular expressions with look-behind

An expression is read from its text and then matched against other texts.  The reader takes the
constructs that globs are written with: single characters, classes, any number of either, one
character to look behind for, and groups of alternatives.  It refuses all others.  There is no limit on
size or work.

A set of positions in a text of `n` characters is a list of `n + 1` marks, one for each position
from before the first character to behind the last.  `marks` sends the positions where an expression
may begin to the positions where it may end; one pass over the text serves each part, so that no
alternative is ever tried twice.
-/

namespace ArmorPolicy

open Glob (CharClass ClassChar)

inductive Expression where
  | empty
  | one (cls : CharClass)
  | many (cls : CharClass)
  /-- The given character stands just before, or does not. -/
  | behind (present : Bool) (c : Char)
  | seq (first second : Expression)
  | alt (first second : Expression)
  deriving DecidableEq, Repr

namespace Expression

/-! ## Reading -/

def ofSeq : List Expression → Expression
  | [] => .empty
  | e :: rest => .seq e (ofSeq rest)

def ofAlternatives (first : Expression) : List Expression → Expression
  | [] => first
  | second :: rest => .alt first (ofAlternatives second rest)

/-- A choice among alternatives, each given by its parts. -/
def ofChoice : List (List Expression) → Expression
  | [] => .empty
  | first :: others => ofAlternatives (ofSeq first) (others.map ofSeq)

/-- A group that is still open: its finished alternatives and the parts of the current one, each
with the latest first. -/
structure Group where
  finished : List (List Expression)
  current : List Expression
  deriving DecidableEq, Repr

namespace Group

def start : Group := ⟨[], []⟩

def push (group : Group) (e : Expression) : Group := { group with current := e :: group.current }

def separate (group : Group) : Group := ⟨group.current.reverse :: group.finished, []⟩

/-- The alternatives in the order in which they are written. -/
def alternatives (group : Group) : List (List Expression) :=
  (group.current.reverse :: group.finished).reverse

end Group

/-- What the next character belongs to. -/
inductive Mode where
  | text
  | escape
  /-- Behind `(?`, behind `(?<`, behind `(?<=` or `(?<!`, and behind the character after these. -/
  | look
  | lookBehind
  | lookFor (present : Bool)
  | looked (present : Bool) (c : Char)
  /-- In brackets, behind the given characters, the latest first. -/
  | members (chars : List ClassChar)
  | memberEscape (chars : List ClassChar)
  | codePoint (chars : List ClassChar) (high : Option Nat)
  deriving DecidableEq, Repr

structure Reader where
  groups : List Group
  outer : List Expression
  mode : Mode
  deriving DecidableEq, Repr

/-- The characters with a meaning of their own outside of brackets. -/
def isSign (c : Char) : Bool :=
  c ∈ ['\\', '.', '+', '*', '?', '(', ')', '|', '[', ']', '{', '}', '^', '$']

def hexDigit? (c : Char) : Option Nat :=
  if '0' ≤ c ∧ c ≤ '9' then some (c.toNat - '0'.toNat)
  else if 'a' ≤ c ∧ c ≤ 'f' then some (c.toNat - 'a'.toNat + 10)
  else if 'A' ≤ c ∧ c ≤ 'F' then some (c.toNat - 'A'.toNat + 10)
  else none

/-- The last part repeated, which has to be a single character. -/
def repeatLast? (again : CharClass → Expression) : List Expression → Option (List Expression)
  | .one cls :: rest => some (again cls :: rest)
  | _ => none

namespace Reader

def start : Reader := ⟨[], [], .text⟩

def push (reader : Reader) (e : Expression) : Reader :=
  match reader.groups with
  | [] => ⟨[], e :: reader.outer, .text⟩
  | group :: groups => ⟨group.push e :: groups, reader.outer, .text⟩

def pushChar (reader : Reader) (c : Char) : Reader := reader.push (.one (.single c))

def again? (reader : Reader) (again : CharClass → Expression) : Option Reader :=
  match reader.groups with
  | [] => (repeatLast? again reader.outer).map fun outer => { reader with outer }
  | group :: groups =>
    (repeatLast? again group.current).map fun current =>
      { reader with groups := { group with current } :: groups }

/-- Reads a character outside of brackets.  Alternatives outside of all groups are refused, since
the anchors would not hold for all of them. -/
def readText (reader : Reader) : Char → Option Reader
  | '\\' => some { reader with mode := .escape }
  | '[' => some { reader with mode := .members [] }
  | '(' => some { reader with groups := Group.start :: reader.groups }
  | ')' =>
    match reader.groups with
    | [] => none
    | group :: groups => some ({ reader with groups }.push (ofChoice group.alternatives))
  | '|' =>
    match reader.groups with
    | [] => none
    | group :: groups => some { reader with groups := group.separate :: groups }
  | '?' =>
    match reader.groups with
    | ⟨[], []⟩ :: groups => some { reader with groups, mode := .look }
    | _ => none
  | '*' => reader.again? .many
  | '+' => reader.again? fun cls => .seq (.one cls) (.many cls)
  | '.' => some (reader.push (.one { CharClass.single '\n' with negated := true }))
  | ']' | '{' | '}' | '^' | '$' => none
  | c => some (reader.pushChar c)

/-- Reads a character in brackets.  A closing bracket that comes first, or first behind `^`, belongs
to the class. -/
def readMember (reader : Reader) (chars : List ClassChar) : Char → Option Reader
  | '\\' => some { reader with mode := .memberEscape chars }
  | '[' => none
  | ']' =>
    if chars = [] ∨ chars = [⟨'^', false⟩] then
      some { reader with mode := .members (⟨']', false⟩ :: chars) }
    else (CharClass.ofChars? chars.reverse).map fun cls => reader.push (.one cls)
  | c => some { reader with mode := .members (⟨c, false⟩ :: chars) }

def read (reader : Reader) (c : Char) : Option Reader :=
  match reader.mode with
  | .text => reader.readText c
  | .escape => if Text.isAlphanumeric c then none else some (reader.pushChar c)
  | .look => if c = '<' then some { reader with mode := .lookBehind } else none
  | .lookBehind =>
    if c = '=' then some { reader with mode := .lookFor true }
    else if c = '!' then some { reader with mode := .lookFor false }
    else none
  | .lookFor present =>
    if isSign c then none else some { reader with mode := .looked present c }
  | .looked present d => if c = ')' then some (reader.push (.behind present d)) else none
  | .members chars => reader.readMember chars c
  | .memberEscape chars =>
    if c = 'x' then some { reader with mode := .codePoint chars none }
    else if Text.isAlphanumeric c then none
    else some { reader with mode := .members (⟨c, true⟩ :: chars) }
  | .codePoint chars none =>
    (hexDigit? c).map fun digit => { reader with mode := .codePoint chars (some digit) }
  | .codePoint chars (some high) =>
    (hexDigit? c).map fun digit =>
      { reader with mode := .members (⟨.ofNat (16 * high + digit), true⟩ :: chars) }

def scan (reader : Reader) (s : List Char) : Option Reader := s.foldlM read reader

def finish? (reader : Reader) : Option Expression :=
  if reader.groups = [] ∧ reader.mode = .text then some (ofSeq reader.outer.reverse) else none

end Reader

/-- Reads an expression between its anchors. -/
def ofText? : List Char → Option Expression
  | '^' :: rest =>
    if rest.getLast? = some '$' then (Reader.start.scan rest.dropLast).bind Reader.finish? else none
  | _ => none

/-! ## Matching -/

/-- The positions behind one character of a class. -/
def markOne (cls : CharClass) (text : List Char) (starts : List Bool) : List Bool :=
  false :: List.zipWith (fun start c => start && cls.contains c) starts text

/-- The positions behind any number of characters of a class; `running` says that such characters
have reached the current position from an earlier one. -/
def markMany (cls : CharClass) (running : Bool) : List Char → List Bool → List Bool
  | _, [] => []
  | [], start :: _ => [running || start]
  | c :: text, start :: starts =>
    (running || start) :: markMany cls ((running || start) && cls.contains c) text starts

/-- The positions with the right character before them. -/
def markBehind (present : Bool) (d : Char) (before : Option Char) (text : List Char)
    (starts : List Bool) : List Bool :=
  List.zipWith (fun start last => start && (last == some d) == present) starts
    (before :: text.map some)

/-- The positions where an expression may end, from those where it may begin.  `before` is the
character just before the text. -/
def marks (before : Option Char) (text : List Char) : Expression → List Bool → List Bool
  | .empty, starts => starts
  | .one cls, starts => markOne cls text starts
  | .many cls, starts => markMany cls false text starts
  | .behind present d, starts => markBehind present d before text starts
  | .seq first second, starts => marks before text second (marks before text first starts)
  | .alt first second, starts =>
    List.zipWith (· || ·) (marks before text first starts) (marks before text second starts)

/-- The expression stands for the whole text, by its marks. -/
def marksEnd (before : Option Char) (e : Expression) (text : List Char) : Bool :=
  (marks before text e (true :: text.map fun _ => false)).getLast? == some true

/-- The expression stands for the whole text.  Single characters at its start are compared one by
one. -/
def matchesFrom : Option Char → Expression → List Char → Bool
  | _, .seq (.one _) _, [] => false
  | _, .seq (.one cls) rest, c :: text => cls.contains c && matchesFrom (some c) rest text
  | before, e, text => marksEnd before e text

def isMatch (e : Expression) (text : List Char) : Bool := matchesFrom none e text

end Expression

end ArmorPolicy
