import ArmorPolicy.Rule.Reader

/-!
# Forms of lines in a profile text

A line opens a profile or a hat, closes one, opens or continues a conditional block, declares a
hat in the old way, is a comment, or belongs to a statement.
-/

namespace ArmorPolicy

open Text Line

/-- What follows the name in the header of a profile. -/
structure HeaderDetails where
  attachment : Option String
  xattrs : Option String
  flags : Option String
  comment : String
  deriving DecidableEq, Repr

structure HeaderLine extends HeaderDetails where
  name : String
  profileWord : Bool
  deriving DecidableEq, Repr

structure HatLine where
  name : String
  flags : Option String
  comment : String
  deriving DecidableEq, Repr

inductive LineForm where
  | header (header : HeaderLine)
  | hat (hat : HatLine)
  | closing
  | conditional
  | alternative
  | changeHat (hat : String)
  | comment
  | statement
  deriving DecidableEq, Repr

namespace LineForm

/-! ## Headers -/

/-- An optional part of a header behind blanks: what is read, and the text behind it. -/
def optionalPart {α : Type} (read : List Char → Option (α × List Char)) (s : List Char) :
    Option α × List Char :=
  match (afterBlanks? s).bind read with
  | some (part, rest) => (some part, rest)
  | none => (none, s)

/-- The text between parentheses behind a given start. -/
def parenthesized? (start : String) (s : List Char) : Option (List Char × List Char) :=
  ((after? start s).bind (after? "(")).bind (upTo? ')')

def flags? (s : List Char) : Option (List Char × List Char) :=
  (parenthesized? "flags=" s).or (parenthesized? "" s)

/-- Starts with a slash or a variable. -/
def startsPath (s : List Char) : Bool := s.head? == some '/' || s.head? == some '@'

def attachment? (s : List Char) : Option (List Char × List Char) :=
  match s with
  | '"' :: inner => if startsPath inner then quotation? s else none
  | _ =>
    if startsPath s then
      let p (c : Char) : Bool := isSolid c && c != '{'
      some (s.takeWhile p, s.dropWhile p)
    else none

def nameChar (c : Char) : Bool := isSolid c && c != '"' && c != '{'

/-- A name that is a text between quotation marks or a word. -/
def name? (s : List Char) : Option (List Char × List Char) :=
  match s with
  | '"' :: _ => (quotation? s).filter fun cut => cut.1.length > 2
  | _ =>
    match s.takeWhile nameChar with
    | [] => none
    | name => some (name, s.dropWhile nameChar)

def textOf (s : List Char) : String := String.ofList s

def details? (s : List Char) : Option HeaderDetails :=
  let (attachment, s) := optionalPart attachment? s
  let (xattrs, s) := optionalPart (parenthesized? "xattrs=") s
  let (flags, s) := optionalPart flags? s
  (braceEnding? s).map fun comment =>
    { attachment := attachment.map fun written => textOf (stripQuotes written),
      xattrs := xattrs.map fun written => textOf (trim written), flags := flags.map textOf,
      comment }

/-- The header of a profile whose name is a path.  A path without quotation marks is as short as it
can be, because a brace may belong to it. -/
def plainHeader? (s : List Char) : Option (List Char × HeaderDetails) :=
  match s with
  | '/' :: rest => behind ['/'] (shortest? isSolid details? rest)
  | '"' :: '/' :: _ =>
    (quotation? s).bind fun (name, rest) => (details? rest).map fun details => (name, details)
  | _ => none

def wordedHeader? (s : List Char) : Option (List Char × HeaderDetails) :=
  ((afterWord? "profile" s).bind name?).bind fun (name, rest) =>
    (details? rest).map fun details => (name, details)

def header? (line : List Char) : Option HeaderLine :=
  let make (profileWord : Bool) (name : List Char) (details : HeaderDetails) : HeaderLine :=
    { details with name := textOf (stripQuotes name), profileWord }
  let s := trimStart line
  match plainHeader? s with
  | some (name, details) => some (make false name details)
  | none => (wordedHeader? s).map fun (name, details) => make true name details

def hat? (line : List Char) : Option HatLine :=
  let s := trimStart line
  (((after? "^" s).or (afterWord? "hat" s)).bind name?).bind fun (name, s) =>
    let (flags, s) := optionalPart flags? s
    (braceEnding? s).map fun comment =>
      { name := textOf (stripQuotes name), flags := flags.map textOf, comment }

/-! ## Blocks -/

def isClosing (line : List Char) : Bool :=
  ((after? "\x7d" (trimStart line)).bind ending?).isSome

def skipWord (word : String) (s : List Char) : List Char := (afterWord? word s).getD s

/-- `if`, possibly `not` and `defined`, a variable, and an opening brace. -/
def isConditional (line : List Char) : Bool :=
  match (afterWord? "if" (trimStart line)).map fun s => skipWord "defined" (skipWord "not" s) with
  | some (sign :: s) =>
    let s := skipSign '{' s
    (sign == '@' || sign == '$') && !(s.takeWhile isWord).isEmpty &&
      (braceEnding? (skipSign '}' (s.dropWhile isWord))).isSome
  | _ => false

/-- A closing brace, `else`, possibly a further `if`, and an opening brace. -/
def isAlternative (line : List Char) : Bool :=
  match (after? "\x7d" (trimStart line)).bind fun s => after? "else" (trimStart s) with
  | none => false
  | some s =>
    (braceEnding? s).isSome ||
      match (afterBlanks? s).bind (afterWord? "if") with
      | none => false
      | some s => (shortest? notNewline braceEnding? s).isSome

/-- Some brace of the line opens a block: nothing follows it but a comment. -/
def opensBlock (line : List Char) : Bool :=
  match line with
  | [] => false
  | '{' :: rest => (ending? rest).isSome || opensBlock rest
  | _ :: rest => opensBlock rest

/-- The hat of an old declaration, with its quotation marks. -/
def changeHat? (line : List Char) : Option String :=
  (after? "^" (trimStart line)).bind fun s =>
    let hatChar (c : Char) : Bool := isSolid c && c != '"' && c != ','
    let cut : Option (List Char × List Char) := match s with
      | '"' :: _ => (quotation? s).filter fun cut => cut.1.length > 2
      | _ => if (s.takeWhile hatChar).isEmpty then none
          else some (s.takeWhile hatChar, s.dropWhile hatChar)
    cut.bind fun (name, s) => (commaEnding? s).map fun _ => textOf name

/-- A line with the comment sign first, unless it is an include. -/
def isComment (line : List Char) : Bool :=
  line.head? == some '#' && !Rule.fits .inclusion line

/-- The form of a line that has no blanks at its ends. -/
def ofLine (line : List Char) : LineForm :=
  match header? line with
  | some found => .header found
  | none =>
  match hat? line with
  | some found => .hat found
  | none =>
  if isClosing line then .closing
  else if isConditional line then .conditional
  else if isAlternative line then .alternative
  else
  match changeHat? line with
  | some found => .changeHat found
  | none => if isComment line then .comment else .statement

/-! ## Ends of statements -/

/-- Whether a comma ends the line, before an optional comment.  The first argument tells whether the
text starts between quotation marks. -/
def commaEndsFrom : Bool → List Char → Bool
  | _, [] => false
  | true, c :: rest => commaEndsFrom (c != '"') rest
  | false, c :: rest =>
    if c = '#' then false
    else (c == ',' && (ending? rest).isSome) || commaEndsFrom (c == '"') rest

def commaEnds (line : List Char) : Bool := commaEndsFrom false line

/-- The text before the comment sign, where there is one outside of quotation marks. -/
def beforeCommentFrom? : Bool → List Char → Option (List Char)
  | _, [] => none
  | true, c :: rest => (beforeCommentFrom? (c != '"') rest).map (c :: ·)
  | false, c :: rest =>
    if c = '#' then some [] else (beforeCommentFrom? (c == '"') rest).map (c :: ·)

def withoutComment (line : List Char) : List Char :=
  match beforeCommentFrom? false line with
  | some start => trimEnd start
  | none => line

end LineForm

end ArmorPolicy
