import ArmorPolicy.Data.SortedSet
import ArmorPolicy.Line.Basic
import ArmorPolicy.Pattern
import ArmorPolicy.Rule.Extent

/-!
# Clauses of a rule body

The bodies of dbus, ptrace and signal rules list accesses and conditions in any order, separated by
blanks and commas: `(send receive) key=value key=(a b)`.  Values may stand between quotation marks,
also in part.
-/

namespace ArmorPolicy

open Text

inductive ClauseValue where
  | single (value : String)
  | list (items : List String)
  deriving DecidableEq, Repr

def ClauseValue.items : ClauseValue → List String
  | .single value => [value]
  | .list items => items

/-- The accesses and the conditions of a body, in the order in which they stand. -/
structure Clauses where
  access : List String := []
  conditions : List (String × ClauseValue) := []
  deriving DecidableEq, Repr

namespace Clauses

def isSeparator (c : Char) : Bool := isBlank c || c == ','

/-! ## Reading -/

/-- A word up to a separator or a stop sign, and the text from there on.  Between quotation marks
nothing stops a word, and the marks do not belong to it.  The text from there on is a suffix and no
index, so a mark that is never closed leaves nothing, and there is no index behind the end to clamp. -/
def wordFrom (stop : Char → Bool) : Bool → List Char → List Char × List Char
  | _, [] => ([], [])
  | inside, c :: rest =>
    if c = '"' then wordFrom stop (!inside) rest
    else if !inside && (isSeparator c || stop c) then ([], c :: rest)
    else
      let (word, rest) := wordFrom stop inside rest
      (c :: word, rest)

def word (stop : Char → Bool) (s : List Char) : List Char × List Char := wordFrom stop false s

theorem length_wordFrom_le (stop : Char → Bool) (inside : Bool) (s : List Char) :
    (wordFrom stop inside s).2.length ≤ s.length := by
  induction s generalizing inside with
  | nil => simp [wordFrom]
  | cons c rest ih =>
    simp only [wordFrom]
    split
    next => exact Nat.le_succ_of_le (ih _)
    next =>
      split
      next => exact Nat.le_refl _
      next => exact Nat.le_succ_of_le (ih _)

/-- A word that does not start at a separator or a stop sign takes something away. -/
theorem length_word_lt {stop : Char → Bool} {c : Char} {rest : List Char}
    (starts : (isSeparator c || stop c) = false) :
    (word stop (c :: rest)).2.length < (c :: rest).length := by
  simp only [word, wordFrom, starts, Bool.and_false]
  split
  next => exact Nat.lt_succ_of_le (length_wordFrom_le _ _ _)
  next => exact Nat.lt_succ_of_le (length_wordFrom_le _ _ _)

theorem length_dropWhile_le (p : Char → Bool) (s : List Char) : (s.dropWhile p).length ≤ s.length :=
  (List.dropWhile_sublist p).length_le

/-- The items of a list up to its closing parenthesis, and the text behind it. -/
def group (s : List Char) : Checked (List String × List Char) :=
  match h : s.dropWhile isSeparator with
  | [] => refuse .unbalancedOpen
  | ')' :: rest => .ok ([], rest)
  | c :: t =>
    let (item, rest) := word (· == ')') (c :: t)
    if shorter : rest.length < (c :: t).length then
      have : rest.length < s.length :=
        Nat.lt_of_lt_of_le shorter (h ▸ length_dropWhile_le isSeparator s)
      (group rest).map fun (items, rest) => (String.ofList item :: items, rest)
    else refuse .strayCharacterInList
termination_by s.length

theorem length_group_lt {s rest : List Char} {items : List String}
    (success : group s = .ok (items, rest)) : rest.length < s.length := by
  induction hn : s.length using Nat.strongRecOn generalizing s rest items with
  | ind n ih =>
    rw [group] at success
    split at success
    next => cases success
    next t h =>
      cases success
      have := length_dropWhile_le isSeparator s
      rw [h, List.length_cons] at this
      omega
    next c t _ h =>
      have whole := length_dropWhile_le isSeparator s
      rw [h] at whole
      simp only at success
      split at success
      next shorter =>
        cases inner : group (word (· == ')') (c :: t)).2 with
        | error e => rw [inner] at success; cases success
        | ok result =>
          rw [inner] at success
          cases success
          have := ih _ (by omega) inner rfl
          omega
      next => cases success

def isWordStop (c : Char) : Bool := c == '=' || c == '(' || c == ')'

def withAccess (words : List String) (clauses : Clauses) : Clauses :=
  { clauses with access := words ++ clauses.access }

def withCondition (key : String) (value : ClauseValue) (clauses : Clauses) : Clauses :=
  { clauses with conditions := (key, value) :: clauses.conditions }

inductive Step where
  | access (words : List String)
  | condition (key : String) (value : ClauseValue)
  deriving DecidableEq, Repr

def Step.addTo (clauses : Clauses) : Step → Clauses
  | .access words => clauses.withAccess words
  | .condition key value => clauses.withCondition key value

def value (key : String) (s : List Char) : Checked (ClauseValue × List Char) :=
  match s with
  | '(' :: rest => (group rest).map fun (items, rest) => (.list items, rest)
  | s =>
    let (value, rest) := word (fun _ => false) s
    if value.isEmpty then refuse (.missingValue key)
    else .ok (.single (String.ofList value), rest)

/-- Reads one clause of a text that starts with no separator. -/
def step (body s : List Char) : Checked (Step × List Char) :=
  match s with
  | '(' :: rest => (group rest).map fun (items, rest) => (.access items, rest)
  | ')' :: _ => refuse (.unbalancedClose (String.ofList (trim body)))
  | s =>
    let (key, rest) := word isWordStop s
    let key := String.ofList key
    match rest with
    | '=' :: rest => (value key rest).map fun (value, rest) => (.condition key value, rest)
    | rest => .ok (.access [key], rest)

theorem length_value_le {key : String} {s rest : List Char} {found : ClauseValue}
    (success : value key s = .ok (found, rest)) : rest.length ≤ s.length := by
  unfold value at success
  split at success
  next t =>
    cases inner : group t with
    | error e => rw [inner] at success; cases success
    | ok result =>
      rw [inner] at success
      cases success
      have := length_group_lt inner
      simp only [List.length_cons]
      omega
  next =>
    simp only at success
    split at success
    next => cases success
    next => cases success; exact length_wordFrom_le _ _ _

/-- A step takes something away. -/
theorem length_step_lt {body t rest : List Char} {c : Char} {found : Step}
    (starts : isSeparator c = false) (success : step body (c :: t) = .ok (found, rest)) :
    rest.length < (c :: t).length := by
  unfold step at success
  split at success
  next u h =>
    cases h
    cases inner : group t with
    | error e => rw [inner] at success; cases success
    | ok result =>
      rw [inner] at success
      cases success
      have := length_group_lt inner
      simp only [List.length_cons]
      omega
  next => cases success
  next notOpen notClose =>
    have behind := length_wordFrom_le isWordStop false (c :: t)
    simp only at success
    split at success
    next u h =>
      cases inner : value (String.ofList (word isWordStop (c :: t)).1) u with
      | error e => rw [inner] at success; cases success
      | ok result =>
        rw [inner] at success
        cases success
        have := length_value_le inner
        have split : (wordFrom isWordStop false (c :: t)).2 = '=' :: u := h
        rw [split, List.length_cons] at behind
        omega
    next notEquals =>
      cases success
      apply length_word_lt
      have notStop : isWordStop c = false := by
        unfold isWordStop
        simp only [Bool.or_eq_false_iff, beq_eq_false_iff_ne]
        refine ⟨⟨fun equals => ?_, fun opens => notOpen t (by rw [opens])⟩,
          fun closes => notClose t (by rw [closes])⟩
        subst equals
        exact notEquals t (by simp [word, wordFrom, isWordStop])
      simp [starts, notStop]

theorem not_isSeparator_of_dropWhile {s t : List Char} {c : Char}
    (h : s.dropWhile isSeparator = c :: t) : isSeparator c = false := by
  have := List.head?_dropWhile_not isSeparator s
  rw [h] at this
  simpa using this

def readFrom (body s : List Char) : Checked Clauses :=
  match h : s.dropWhile isSeparator with
  | [] => .ok {}
  | c :: t =>
    match hs : step body (c :: t) with
    | .error fault => .error fault
    | .ok (found, rest) =>
      have : rest.length < s.length :=
        Nat.lt_of_lt_of_le (length_step_lt (not_isSeparator_of_dropWhile h) hs)
          (h ▸ length_dropWhile_le isSeparator s)
      (readFrom body rest).map (Step.addTo · found)
termination_by s.length

def read (body : List Char) : Checked Clauses := readFrom body body

/-! ## Taking clauses out -/

/-- Takes the condition with a given key out; a key must not come twice. -/
def take (clauses : Clauses) (key : String) : Checked (Option ClauseValue × Clauses) :=
  let rest := { clauses with conditions := clauses.conditions.filter fun entry => entry.1 != key }
  match clauses.conditions.filter fun entry => entry.1 == key with
  | [] => .ok (none, rest)
  | [entry] => .ok (some entry.2, rest)
  | _ => refuse (.duplicateCondition key)

def finish (clauses : Clauses) (place : String) : Checked Unit :=
  match clauses.conditions with
  | [] => .ok ()
  | (key, _) :: _ => refuse (.unknownCondition key place)

def patternOf (key : String) : Option ClauseValue → Checked (Extent Pattern)
  | none => .ok .all
  | some (.single value) => (Pattern.ofText value false).map .only
  | some (.list _) => refuse (.listNotAccepted key)

def takePattern (clauses : Clauses) (key : String) : Checked (Extent Pattern × Clauses) := do
  let (value, clauses) ← clauses.take key
  let pattern ← patternOf key value
  return (pattern, clauses)

end Clauses

/-! ## Accesses -/

/-- The accesses that a rule states; without any it is for all of them. -/
abbrev Access : Type := Extent (SortedSet String)

namespace Access

/-- Every access has to be one of the words for its kind. -/
def checkWords (kind : RuleKind) (allowed words : List String) : Checked Unit :=
  match words.find? fun word => !allowed.contains word with
  | some word => refuse (.badAccess word kind)
  | none => .ok ()

def ofWords (kind : RuleKind) (allowed words : List String) : Checked Access :=
  if words.isEmpty then .ok .all
  else (checkWords kind allowed words).map fun _ => .only (SortedSet.ofList words)

/-- What is asked of the accesses of a rule: not none, and only words for the kind. -/
def check (kind : RuleKind) (allowed : List String) : Access → Checked Unit
  | .all => .ok ()
  | .only words =>
    if words.isEmpty then reject (.noAccess kind) else checkWords kind allowed words.toList

/-- One word stands alone, several between parentheses. -/
def listText (words : SortedSet String) : String :=
  if words.size = 1 then spaced words.toList else "(" ++ spaced words.toList ++ ")"

def text (access : Access) : String := Extent.text (fun words => " " ++ listText words) access

/-- Coverage of accesses, where `implied` says what an access word grants. -/
def covers (implied : String → List String) (access other : Access) : Bool :=
  access.coversBy
    (fun mine theirs =>
      let granted := mine.toList.flatMap implied
      (theirs.toList.flatMap implied).all granted.contains)
    other

end Access

/-- A condition as it is written, with a space before it. -/
def Extent.conditionText (key : String) (value : Extent Pattern) : String :=
  value.text fun pattern => " " ++ key ++ "=" ++ quoteIfNeeded pattern.glob

end ArmorPolicy
