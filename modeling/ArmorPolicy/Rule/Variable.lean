import ArmorPolicy.Data.SortedSet
import ArmorPolicy.Line.Statement
import ArmorPolicy.Text.Letter

/-!
# Variables

`@{NAME} = values` defines a variable, `+=` adds values to one, and `$NAME = true` sets a boolean.
-/

namespace ArmorPolicy

open Text Line

/-! ## Booleans -/

structure BooleanSetting where
  name : String
  value : Bool
  deriving DecidableEq, Repr

namespace BooleanSetting

structure Parts where
  name : List Char
  value : Bool
  deriving DecidableEq, Repr

/-- A letter of a word in either case.  The long s is a case of s. -/
def foldsTo (letter c : Char) : Bool := c.toLower == letter || (letter == 's' && c == 'ſ')

/-- The text behind a word in any mixture of cases. -/
def afterFolded? : List Char → List Char → Option (List Char)
  | [], s => some s
  | _ :: _, [] => none
  | w :: word, c :: s => if foldsTo w c then afterFolded? word s else none

def value? (s : List Char) : Option (Bool × List Char) :=
  ((afterFolded? ['t', 'r', 'u', 'e'] s).map (true, ·)).or
    ((afterFolded? ['f', 'a', 'l', 's', 'e'] s).map (false, ·))

def name? (s : List Char) : Option (List Char × List Char) :=
  (after? "$" s).bind fun s =>
    let (opening, s) := if s.head? = some '{' then (['{'], s.drop 1) else ([], s)
    match s.takeWhile isWord with
    | [] => none
    | name =>
      let s := s.dropWhile isWord
      if s.head? = some '}' then some ('$' :: opening ++ name ++ ['}'], s.drop 1)
      else some ('$' :: opening ++ name, s)

def read? : List Char → Option (Statement Parts) :=
  withoutModifiers fun s =>
    (name? s).bind fun (name, s) =>
      (after? "=" (trimStart s)).bind fun s =>
        (value? (trimStart s)).bind fun (value, s) =>
          (looseEnding? s).map fun comment => (⟨name, value⟩, comment)

def make (base : RuleBase) (name : String) (value : Bool) : Checked BooleanSetting := do
  base.forbidModifiers .boolean
  match name.toList with
  | '$' :: _ :: _ => return { name, value }
  | _ => refuse (.badBooleanName name)

def ofParts (base : RuleBase) (parts : Parts) : Checked BooleanSetting :=
  make base (String.ofList parts.name) parts.value

def text (setting : BooleanSetting) : String :=
  setting.name ++ " = " ++ if setting.value then "true" else "false"

end BooleanSetting

/-! ## Assignments -/

inductive AssignMode where
  | define
  | append
  deriving DecidableEq, Repr

def AssignMode.sign : AssignMode → String
  | .define => "="
  | .append => "+="

/-- The definition of a variable, or the addition of values to it. -/
structure Assignment where
  name : String
  mode : AssignMode
  values : SortedSet String
  deriving DecidableEq

namespace Assignment

structure Parts where
  name : List Char
  mode : AssignMode
  values : List Char
  deriving DecidableEq, Repr

def name? (s : List Char) : Option (List Char × List Char) :=
  (after? "@\x7b" s).bind fun s =>
    match s.takeWhile isWord, s.dropWhile isWord with
    | [], _ => none
    | name, '}' :: rest => some ('@' :: '{' :: name ++ ['}'], rest)
    | _, _ => none

def mode? (s : List Char) : Option (AssignMode × List Char) :=
  match s with
  | '+' :: '=' :: rest => some (.append, rest)
  | '=' :: rest => some (.define, rest)
  | _ => none

/-- The values: after as many `@` signs as possible, the shortest text that the end of the line can
follow. -/
def values? (s : List Char) : Option (List Char × String) :=
  (longest? isBlank (longest? (· == '@') (shortestPart? notNewline looseEnding?)) s).map
    fun (_, signs, values, comment) => (signs ++ values, comment)

def read? : List Char → Option (Statement Parts) :=
  withoutModifiers fun s =>
    (name? s).bind fun (name, s) =>
      (mode? (trimStart s)).bind fun (mode, s) =>
        (values? s).map fun (values, comment) => (⟨name, mode, values⟩, comment)

/-- The first value of a text without blanks at its start, and the text behind it. -/
def firstValue? (s : List Char) : Option (List Char × List Char) :=
  let cut := match s with
    | '"' :: _ => quotation? s
    | _ =>
      match s.takeWhile fun c => isSolid c && c != '"' with
      | [] => none
      | value => some (value, s.drop value.length)
  cut.bind fun (value, rest) =>
    let rest := trimStart rest
    if rest.contains '\n' then none else some (value, trim rest)

/-- Takes values off a text until none is left.  The first argument bounds their number; the length
of the text is enough. -/
def valuesFrom : Nat → List Char → SortedSet String → Checked (SortedSet String)
  | 0, rest, values =>
    if rest.isEmpty then .ok values else refuse (.assignmentLeftover (String.ofList rest))
  | bound + 1, rest, values =>
    match firstValue? rest with
    | none =>
      if rest.isEmpty then .ok values else refuse (.assignmentLeftover (String.ofList rest))
    | some (value, rest) =>
      if value.getLast? = some ',' then refuse .assignmentTrailingComma
      else valuesFrom bound rest (values.insert (String.ofList (stripQuotes value)))

/-- The values of an assignment: words, or texts between quotation marks. -/
def separate (s : List Char) : Checked (SortedSet String) :=
  valuesFrom s.length (trim s) SortedSet.empty

def make (base : RuleBase) (name : String) (mode : AssignMode) (values : SortedSet String) :
    Checked Assignment := do
  base.forbidModifiers .assignment
  if !((after? "@\x7b" name.toList).isSome && name.toList.getLast? == some '}') then
    refuse (.badVariableName name)
  if values.isEmpty then refuse (.noVariableValues name)
  return { name, mode, values }

def ofParts (base : RuleBase) (parts : Parts) : Checked Assignment := do
  make base (String.ofList parts.name) parts.mode (← separate parts.values)

def valueText (value : String) : String := if value.isEmpty then "\"\"" else quoteIfNeeded value

def text (assignment : Assignment) : String :=
  assignment.name ++ " " ++ assignment.mode.sign ++ " " ++
    spaced (assignment.values.toList.map valueText)

/-- An assignment covers one of the same kind to the same variable with no further values. -/
def covers (assignment other : Assignment) : Bool :=
  assignment.name == other.name && assignment.mode == other.mode &&
    other.values.subset assignment.values

end Assignment

end ArmorPolicy
