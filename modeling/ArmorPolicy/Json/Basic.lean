import ArmorPolicy.Line.Basic

/-!
# JSON texts

A text is read as one value.  Numbers are kept as they are written.  A string with half of a
surrogate pair has no content; that matters only where the content is used.
-/

namespace ArmorPolicy

inductive Json where
  | null
  | bool (value : Bool)
  | number (literal : String)
  | string (content : Option String)
  | array (items : List Json)
  | object (members : List (Option String × Json))

namespace Json

open Line

def isSpace (c : Char) : Bool := c == ' ' || c == '\n' || c == '\t' || c == '\r'

def skipSpace (s : List Char) : List Char := s.dropWhile isSpace

/-! ## Strings -/

def hexDigit? (c : Char) : Option Nat :=
  if '0' ≤ c && c ≤ '9' then some (c.toNat - '0'.toNat)
  else if 'a' ≤ c && c ≤ 'f' then some (c.toNat - 'a'.toNat + 10)
  else if 'A' ≤ c && c ≤ 'F' then some (c.toNat - 'A'.toNat + 10)
  else none

def hex4? (a b c d : Char) : Option Nat := do
  return (((← hexDigit? a) * 16 + (← hexDigit? b)) * 16 + (← hexDigit? c)) * 16 + (← hexDigit? d)

def simpleEscape? : Char → Option Char
  | '"' => some '"'
  | '\\' => some '\\'
  | '/' => some '/'
  | 'b' => some '\x08'
  | 'f' => some '\x0c'
  | 'n' => some '\n'
  | 'r' => some '\r'
  | 't' => some '\t'
  | _ => none

/-- The code points of a string up to its closing mark, halves of surrogate pairs included, and the
text behind it. -/
def codes? : List Char → Option (List Nat × List Char)
  | [] => none
  | '"' :: rest => some ([], rest)
  | '\\' :: 'u' :: a :: b :: c :: d :: rest =>
    (hex4? a b c d).bind fun code =>
      (codes? rest).map fun (codes, rest) => (code :: codes, rest)
  | '\\' :: letter :: rest =>
    (simpleEscape? letter).bind fun c =>
      (codes? rest).map fun (codes, rest) => (c.toNat :: codes, rest)
  | c :: rest =>
    if c.toNat < 0x20 || c == '\\' then none
    else (codes? rest).map fun (codes, rest) => (c.toNat :: codes, rest)

def isHighSurrogate (n : Nat) : Bool := 0xD800 ≤ n && n ≤ 0xDBFF

def isLowSurrogate (n : Nat) : Bool := 0xDC00 ≤ n && n ≤ 0xDFFF

/-- Joins surrogate pairs; fails on a half that stands alone. -/
def characters? : List Nat → Option (List Char)
  | [] => some []
  | [n] => if isHighSurrogate n || isLowSurrogate n then none else some [Char.ofNat n]
  | high :: low :: rest =>
    if isLowSurrogate high then none
    else if isHighSurrogate high then
      if isLowSurrogate low then
        (characters? rest).map
          (Char.ofNat (0x10000 + (high - 0xD800) * 0x400 + (low - 0xDC00)) :: ·)
      else none
    else (characters? (low :: rest)).map (Char.ofNat high :: ·)

def string? (s : List Char) : Option (Option String × List Char) :=
  (codes? s).map fun (codes, rest) => ((characters? codes).map String.ofList, rest)

/-! ## Numbers -/

def digits? (s : List Char) : Option (List Char × List Char) :=
  match s.takeWhile Char.isDigit with
  | [] => none
  | digits => some (digits, s.dropWhile Char.isDigit)

/-- A number has no zeros in front. -/
def whole? (s : List Char) : Option (List Char × List Char) :=
  match s with
  | '0' :: rest =>
    match rest with
    | c :: _ => if c.isDigit then none else some (['0'], rest)
    | [] => some (['0'], rest)
  | s => digits? s

def fraction? (s : List Char) : Option (List Char × List Char) :=
  match s with
  | '.' :: rest => (digits? rest).map fun (digits, rest) => ('.' :: digits, rest)
  | s => some ([], s)

def exponent? (s : List Char) : Option (List Char × List Char) :=
  match s with
  | c :: rest =>
    if c == 'e' || c == 'E' then
      match rest with
      | sign :: more =>
        if sign == '+' || sign == '-' then
          (digits? more).map fun (digits, rest) => (c :: sign :: digits, rest)
        else (digits? rest).map fun (digits, rest) => (c :: digits, rest)
      | [] => none
    else some ([], s)
  | [] => some ([], [])

def number? (s : List Char) : Option (String × List Char) :=
  let (sign, s) : List Char × List Char := match s with
    | '-' :: rest => (['-'], rest)
    | s => ([], s)
  (whole? s).bind fun (whole, s) =>
    (fraction? s).bind fun (fraction, s) =>
      (exponent? s).map fun (exponent, s) =>
        (String.ofList (sign ++ whole ++ fraction ++ exponent), s)

/-! ## Values -/

mutual

/-- A value at the start of a text, and the text behind it.  The first argument bounds the number of
steps; the length of the text is enough. -/
def value? : Nat → List Char → Option (Json × List Char)
  | 0, _ => none
  | steps + 1, s =>
    match skipSpace s with
    | '"' :: rest => (string? rest).map fun (content, rest) => (.string content, rest)
    | '[' :: rest =>
      match skipSpace rest with
      | ']' :: rest => some (.array [], rest)
      | rest => (items? steps rest).map fun (items, rest) => (.array items, rest)
    | '{' :: rest =>
      match skipSpace rest with
      | '}' :: rest => some (.object [], rest)
      | rest => (members? steps rest).map fun (members, rest) => (.object members, rest)
    | s =>
      (((after? "null" s).map fun rest => (.null, rest)).or
        ((after? "true" s).map fun rest => (.bool true, rest))).or
        (((after? "false" s).map fun rest => (.bool false, rest)).or
          ((number? s).map fun (literal, rest) => (.number literal, rest)))

def items? : Nat → List Char → Option (List Json × List Char)
  | 0, _ => none
  | steps + 1, s =>
    (value? steps s).bind fun (item, rest) =>
      match skipSpace rest with
      | ']' :: rest => some ([item], rest)
      | ',' :: rest => (items? steps rest).map fun (items, rest) => (item :: items, rest)
      | _ => none

def members? : Nat → List Char → Option (List (Option String × Json) × List Char)
  | 0, _ => none
  | steps + 1, s =>
    ((after? "\"" (skipSpace s)).bind string?).bind fun (key, rest) =>
      ((after? ":" (skipSpace rest)).bind (value? steps)).bind fun (value, rest) =>
        match skipSpace rest with
        | '}' :: rest => some ([(key, value)], rest)
        | ',' :: rest =>
          (members? steps rest).map fun (members, rest) => ((key, value) :: members, rest)
        | _ => none

end

def parse? (text : String) : Option Json :=
  (value? (text.length + 1) text.toList).bind fun (value, rest) =>
    if (skipSpace rest).isEmpty then some value else none

end Json

end ArmorPolicy
