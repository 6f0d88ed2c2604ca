import ArmorPolicy.Text.Letter

/-!
# Globs

A glob is read in two steps: into a list of tokens, and from there into a tree.  Braces that pair up
become groups of alternatives; a brace without a partner, and every comma that separates nothing,
stands for itself.
-/

namespace ArmorPolicy

/-- The parts of a glob without inner structure. -/
inductive Glob.Atom where
  | char (c : Char)
  | one
  /-- Any run of characters, across slashes only if `crossing`; not empty right after a slash. -/
  | run (crossing : Bool)
  /-- One character of a class, given by the text between its brackets. -/
  | oneOf (inner : List Char)
  deriving DecidableEq, Repr

/-- The structure of a glob. -/
inductive Glob where
  | empty
  | atom (a : Glob.Atom)
  | seq (first second : Glob)
  | alt (first second : Glob)
  | group (inner : Glob)
  deriving DecidableEq, Repr

namespace Glob

/-! ## Tokens -/

inductive Token where
  | atom (a : Atom)
  | openBrace
  | closeBrace
  | comma
  deriving DecidableEq, Repr

/-- The characters up to the closing bracket of a class; an escaped bracket does not close it. -/
def classBody? : List Char → Option (List Char)
  | [] => none
  | '\\' :: c :: rest => (classBody? rest).map fun body => '\\' :: c :: body
  | ['\\'] => none
  | ']' :: _ => some []
  | c :: rest => (classBody? rest).map (c :: ·)

/-- The text between the brackets of a class, from what follows the opening bracket.  A closing
bracket that comes first, or first after `^`, belongs to the class. -/
def classInner? (s : List Char) : Option (List Char) :=
  match s with
  | '^' :: ']' :: rest => (classBody? rest).map fun body => '^' :: ']' :: body
  | '^' :: rest => (classBody? rest).map ('^' :: ·)
  | ']' :: rest => (classBody? rest).map (']' :: ·)
  | rest => classBody? rest

/-- The name of a variable, from what follows the sign `@`. -/
def variableName? : List Char → Option (List Char)
  | '{' :: rest =>
    let name := rest.takeWhile fun c => Text.isAlphanumeric c || c == '_'
    if !name.isEmpty && (rest.drop name.length).head? == some '}' then some name else none
  | _ => none

def literal (c : Char) : Token := .atom (.char c)

/-- The tokens of a glob.  The first argument counts the characters that belong to the last token
already. -/
def tokensFrom : Nat → List Char → List Token
  | _, [] => []
  | skip + 1, _ :: rest => tokensFrom skip rest
  | 0, c :: rest =>
    match c with
    | '\\' =>
      match rest.head? with
      | none => [literal '\\']
      | some next => literal next :: tokensFrom 1 rest
    | '[' =>
      match classInner? rest with
      | some inner => .atom (.oneOf inner) :: tokensFrom (inner.length + 1) rest
      | none => literal '[' :: tokensFrom 0 rest
    | '@' =>
      match variableName? rest with
      | some name =>
        literal '@' :: literal '{' :: name.map literal ++
          literal '}' :: tokensFrom (name.length + 2) rest
      | none => literal '@' :: tokensFrom 0 rest
    | '*' =>
      if rest.head? = some '*' then .atom (.run true) :: tokensFrom 1 rest
      else .atom (.run false) :: tokensFrom 0 rest
    | '?' => .atom .one :: tokensFrom 0 rest
    | '{' => .openBrace :: tokensFrom 0 rest
    | '}' => .closeBrace :: tokensFrom 0 rest
    | ',' => .comma :: tokensFrom 0 rest
    | c => literal c :: tokensFrom 0 rest

/-- The tokens of a glob.  One `^` at the start says what holds anyway, that the whole text has to
match. -/
def tokens (s : List Char) : List Token :=
  match s with
  | '^' :: rest => tokensFrom 0 rest
  | s => tokensFrom 0 s

/-! ## Trees -/

def ofSeq : List Glob → Glob
  | [] => .empty
  | g :: rest => .seq g (ofSeq rest)

def ofAlternatives (first : Glob) : List Glob → Glob
  | [] => first
  | second :: rest => .alt first (ofAlternatives second rest)

/-- A brace that is still open: its finished alternatives, the latest first, and the parts of the
current one, the latest first. -/
structure Frame where
  finished : List (List Glob)
  current : List Glob
  deriving Repr

namespace Frame

def start : Frame := ⟨[], []⟩

def push (frame : Frame) (g : Glob) : Frame := { frame with current := g :: frame.current }

def separate (frame : Frame) : Frame := ⟨frame.current.reverse :: frame.finished, []⟩

/-- The alternatives in the order in which they are written. -/
def alternatives (frame : Frame) : List (List Glob) :=
  (frame.current.reverse :: frame.finished).reverse

def close (frame : Frame) : Glob :=
  match frame.alternatives.map ofSeq with
  | [] => .group .empty
  | first :: rest => .group (ofAlternatives first rest)

/-- The parts that are left when no closing brace comes: brace and commas stand for themselves. -/
def abandon (frame : Frame) : List Glob :=
  .atom (.char '{') :: [Glob.atom (.char ',')].intercalate frame.alternatives

end Frame

/-- The state of reading a glob: the open braces, the innermost first, and the parts outside of
them, the latest first. -/
structure Reading where
  frames : List Frame
  outer : List Glob
  deriving Repr

namespace Reading

def start : Reading := ⟨[], []⟩

def push (state : Reading) (g : Glob) : Reading :=
  match state.frames with
  | [] => { state with outer := g :: state.outer }
  | frame :: frames => { state with frames := frame.push g :: frames }

def read (state : Reading) : Token → Reading
  | .atom a => state.push (.atom a)
  | .openBrace => { state with frames := Frame.start :: state.frames }
  | .comma =>
    match state.frames with
    | [] => state.push (.atom (.char ','))
    | frame :: frames => { state with frames := frame.separate :: frames }
  | .closeBrace =>
    match state.frames with
    | [] => state.push (.atom (.char '}'))
    | frame :: frames => { state with frames := frames }.push frame.close

/-- The glob at the end of the text, where the braces that are still open stand for themselves. -/
def finish (state : Reading) : Glob :=
  ofSeq (state.outer.reverse ++ state.frames.reverse.flatMap Frame.abandon)

end Reading

def ofTokens (tokens : List Token) : Glob := (tokens.foldl Reading.read Reading.start).finish

def ofText (s : List Char) : Glob := ofTokens (tokens s)

/-! ## Literal texts as globs -/

/-- The characters that a glob for a literal text escapes. -/
def needsEscape (c : Char) : Bool :=
  c == '\\' || c == '*' || c == '?' || c == '[' || c == ']' || c == '{' || c == '}' || c == '"' ||
    c == '!' || c == '(' || c == ')' || c == '^'

/-- A glob that matches one text only. -/
def escape : List Char → List Char
  | [] => []
  | c :: rest => if needsEscape c then '\\' :: c :: escape rest else c :: escape rest

end Glob

end ArmorPolicy
