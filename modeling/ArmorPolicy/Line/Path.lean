import ArmorPolicy.Line.Basic

/-!
# Paths and targets in a line

A path starts with a slash or with a variable in braces and may stand between quotation marks.  A
target is any word, or a text between quotation marks.  Both are read together with what follows
them: a word reaches as far as it can, because a comma may belong to the word or end the line.
-/

namespace ArmorPolicy.Line

open Text

variable {α : Type}

/-- A text between quotation marks, the first of which is already read. -/
def quotedRest? (read : List Char → Option α) (s : List Char) : Option (List Char × α) :=
  (upTo? '"' s).bind fun (inner, rest) =>
    (read rest).map fun value => (inner ++ ['"'], value)

/-- The text up to the first closing brace, if no blank stands before it. -/
def upToBrace? : List Char → Option (List Char × List Char)
  | [] => none
  | c :: rest =>
    if c = '}' then some ([c], rest)
    else if isSolid c then (upToBrace? rest).map fun (name, rest) => (c :: name, rest)
    else none

/-- A word with a variable at its start, the opening brace of which is already read.  The name has
at least one character, which may be a brace. -/
def variableRest? (read : List Char → Option α) (s : List Char) : Option (List Char × α) :=
  match s with
  | [] => none
  | c :: rest =>
    if isSolid c then
      (upToBrace? rest).bind fun (name, rest) =>
        behind (c :: name) (longest? isSolid read rest)
    else none

/-- The same between quotation marks.  The brace of the variable is the last one in its word that a
quotation mark can still follow. -/
def quotedVariableRest? (read : List Char → Option α) (s : List Char) : Option (List Char × α) :=
  let closing (s : List Char) : Option (List Char × α) :=
    match s with
    | '}' :: rest => behind ['}'] (quotedRest? read rest)
    | _ => none
  (longestPart? isSolid closing s).map fun (name, rest, value) => (name ++ rest, value)

def path? (read : List Char → Option α) (s : List Char) : Option (List Char × α) :=
  match s with
  | '/' :: rest => behind ['/'] (longest? isSolid read rest)
  | '@' :: '{' :: rest => behind ['@', '{'] (variableRest? read rest)
  | '"' :: '/' :: rest => behind ['"', '/'] (quotedRest? read rest)
  | '"' :: '@' :: '{' :: rest => behind ['"', '@', '{'] (quotedVariableRest? read rest)
  | _ => none

def target? (read : List Char → Option α) (s : List Char) : Option (List Char × α) :=
  match longestPart? isSolid read s with
  | some found => some found
  | none =>
    ((quotation? s).filter fun cut => cut.1.length > 2).bind fun (target, rest) =>
      (read rest).map fun value => (target, value)

/-- An arrow with a target, which may be left out, and the end of the line. -/
def targetEnding? (s : List Char) : Option (Option (List Char) × String) :=
  match ((afterBlanks? s).bind (after? "->")).bind fun s =>
      target? commaEnding? (trimStart s) with
  | some (target, comment) => some (some target, comment)
  | none => (commaEnding? s).map fun comment => (none, comment)

end ArmorPolicy.Line
