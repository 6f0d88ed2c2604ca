import ArmorPolicy.Text.Basic

/-!
# Pieces of a line

The grammars of statements are put together from few pieces: literal words, blanks, quoted texts,
and the ending with its optional comment.  Where a grammar leaves open how far a piece reaches, the
shortest or the longest one is taken behind which the rest of the line can be read.
-/

namespace ArmorPolicy.Line

open Text

/-! ## Words and blanks -/

/-- The text behind a literal word at the start. -/
def afterChars? : List Char → List Char → Option (List Char)
  | [], s => some s
  | _ :: _, [] => none
  | w :: word, c :: s => if w = c then afterChars? word s else none

def after? (word : String) (s : List Char) : Option (List Char) := afterChars? word.toList s

def afterBlanks? (s : List Char) : Option (List Char) :=
  match s with
  | c :: rest => if isBlank c then some (trimStart rest) else none
  | [] => none

def afterWord? (word : String) (s : List Char) : Option (List Char) :=
  (after? word s).bind afterBlanks?

/-- The text before the first `stop`, and the text behind it. -/
def upTo? (stop : Char) : List Char → Option (List Char × List Char)
  | [] => none
  | c :: rest =>
    if c = stop then some ([], rest)
    else (upTo? stop rest).map fun (inner, rest) => (c :: inner, rest)

/-- A text between quotation marks, marks included, and the text behind it. -/
def quotation? : List Char → Option (List Char × List Char)
  | '"' :: rest => (upTo? '"' rest).map fun (inner, rest) => ('"' :: inner ++ ['"'], rest)
  | _ => none

def skipSign (sign : Char) (s : List Char) : List Char :=
  match s with
  | c :: rest => if c = sign then rest else s
  | [] => []

/-! ## Choices -/

section Choices

variable {α : Type}

/-- Puts a start in front of the part that has been found. -/
def behind (start : List Char) (found : Option (List Char × α)) : Option (List Char × α) :=
  found.map fun (part, value) => (start ++ part, value)

/-- The shortest start of characters that satisfy `p` behind which `read` succeeds, and what it
reads there. -/
def shortest? (p : Char → Bool) (read : List Char → Option α) :
    List Char → Option (List Char × α)
  | [] => (read []).map ([], ·)
  | c :: rest =>
    match read (c :: rest) with
    | some value => some ([], value)
    | none => if p c then behind [c] (shortest? p read rest) else none

/-- The longest start of characters that satisfy `p` behind which `read` succeeds, and what it
reads there. -/
def longest? (p : Char → Bool) (read : List Char → Option α) :
    List Char → Option (List Char × α)
  | [] => (read []).map ([], ·)
  | c :: rest =>
    match if p c then behind [c] (longest? p read rest) else none with
    | some found => some found
    | none => (read (c :: rest)).map ([], ·)

def shortestPart? (p : Char → Bool) (read : List Char → Option α) :
    List Char → Option (List Char × α)
  | [] => none
  | c :: rest => if p c then behind [c] (shortest? p read rest) else none

def longestPart? (p : Char → Bool) (read : List Char → Option α) :
    List Char → Option (List Char × α)
  | [] => none
  | c :: rest => if p c then behind [c] (longest? p read rest) else none

end Choices

/-- An optional word and its blanks: first with it, then without. -/
def optionalWord (word : String) (s : List Char) : List (Bool × List Char) :=
  match afterWord? word s with
  | some rest => [(true, rest), (false, s)]
  | none => [(false, s)]

/-! ## Endings -/

/-- The end of a line after its last sign: nothing, or a comment, with blanks around.  The result is
the comment as a rule keeps it. -/
def ending? (s : List Char) : Option String :=
  match trimStart s with
  | [] => some ""
  | '#' :: rest =>
    let comment := trimEnd ('#' :: rest)
    if comment.contains '\n' then none else some (String.ofList (' ' :: comment))
  | _ => none

def commaEnding? (s : List Char) : Option String :=
  match trimStart s with
  | ',' :: rest => ending? rest
  | _ => none

def looseEnding? (s : List Char) : Option String :=
  match trimStart s with
  | ',' :: rest => ending? rest
  | rest => ending? rest

def braceEnding? (s : List Char) : Option String :=
  match trimStart s with
  | '{' :: rest => ending? rest
  | _ => none

def notNewline (c : Char) : Bool := c != '\n'

/-- The body of a keyword statement, with the blanks before it, and its comment.  The body is the
shortest text of allowed characters that a comma and the end of the line can follow. -/
def body? (allowed : Char → Bool) (s : List Char) : Option (List Char × String) :=
  match s.takeWhile isBlank with
  | [] => (commaEnding? s).map fun comment => ([], comment)
  | blanks => behind blanks (shortest? allowed commaEnding? (trimStart s))

end ArmorPolicy.Line
