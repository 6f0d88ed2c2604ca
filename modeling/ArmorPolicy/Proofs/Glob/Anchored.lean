import ArmorPolicy.Glob.Regex
import ArmorPolicy.Proofs.Glob.Reading

/-!
# The anchors of a glob's regular expression

Looking for the marks of a glob alone, the braces and commas that no escape, class or variable holds,
finds the same ones as reading all of its tokens.  In the regular expression the marks have roles
that are well nested: braces pair up, and commas separate alternatives only directly inside of a
pair.  So every group of the expression is closed, no alternative is separated outside of all groups,
and the anchors hold for the whole.
-/

namespace ArmorPolicy.Glob

open Option List

variable {c : Char} {s rest body inner : List Char} {depth : Nat}

/-! ## The tokens and their positions -/

/-- What the reader finds in one turn: tokens, and how many further characters belong to them. -/
def turn (c : Char) (rest : List Char) : List Token × Nat :=
  match c with
  | '\\' =>
    match rest.head? with
    | none => ([literal '\\'], 0)
    | some next => ([literal next], 1)
  | '[' =>
    match classInner? rest with
    | some inner => ([.atom (.oneOf inner)], inner.length + 1)
    | none => ([literal '['], 0)
  | '@' =>
    match variableName? rest with
    | some name => (('@' :: '{' :: name ++ ['}']).map literal, name.length + 2)
    | none => ([literal '@'], 0)
  | '*' => if rest.head? = some '*' then ([.atom (.run true)], 1) else ([.atom (.run false)], 0)
  | '?' => ([.atom .one], 0)
  | '{' => ([.openBrace], 0)
  | '}' => ([.closeBrace], 0)
  | ',' => ([.comma], 0)
  | c => ([literal c], 0)

theorem tokensFrom_cons (c : Char) (rest : List Char) :
    tokensFrom 0 (c :: rest) = (turn c rest).1 ++ tokensFrom (turn c rest).2 rest := by
  unfold turn
  split
  case h_1 => cases rest <;> simp [tokensFrom]
  case h_2 => cases found : classInner? rest <;> simp [tokensFrom, found]
  case h_3 => cases found : variableName? rest <;> simp [tokensFrom, found]
  case h_4 => by_cases twice : rest.head? = some '*' <;> simp [tokensFrom, twice]
  case h_9 => rw [tokensFrom] <;> simp_all
  all_goals simp [tokensFrom]

def placedFrom : Nat → Nat → List Char → List (Token × Nat)
  | _, _, [] => []
  | position, skip + 1, _ :: rest => placedFrom (position + 1) skip rest
  | position, 0, c :: rest =>
    (turn c rest).1.map (·, position) ++ placedFrom (position + 1) (turn c rest).2 rest

def placed : List Char → List (Token × Nat)
  | '^' :: rest => placedFrom 1 0 rest
  | s => placedFrom 0 0 s

theorem map_fst_placedFrom (position skip : Nat) (s : List Char) :
    (placedFrom position skip s).map Prod.fst = tokensFrom skip s := by
  induction s generalizing position skip with
  | nil => cases skip <;> rfl
  | cons c rest ih =>
    cases skip with
    | zero => simp [placedFrom, tokensFrom_cons, ih, Function.comp_def]
    | succ skip => rw [placedFrom, ih, tokensFrom]

theorem map_fst_placed (s : List Char) : (placed s).map Prod.fst = tokens s := by
  unfold placed
  split
  · exact map_fst_placedFrom 1 0 _
  next noCaret => rw [map_fst_placedFrom, tokens.eq_2 _ noCaret]

/-! ## Marks -/

def Token.isMark : Token → Bool
  | .atom _ => false
  | _ => true

/-- The mark that a character makes where it is not held. -/
def mark? : Char → Option Token
  | '{' => some .openBrace
  | '}' => some .closeBrace
  | ',' => some .comma
  | _ => none

/-- How many further characters are held by what starts here. -/
def held (c : Char) (rest : List Char) : Nat :=
  match c with
  | '\\' => 1
  | '[' => ((classInner? rest).map fun inner => inner.length + 1).getD 0
  | '@' => ((variableName? rest).map fun name => name.length + 2).getD 0
  | _ => 0

def marksFrom : Nat → Nat → List Char → List (Token × Nat)
  | _, _, [] => []
  | position, skip + 1, _ :: rest => marksFrom (position + 1) skip rest
  | position, 0, c :: rest =>
    ((mark? c).map (·, position)).toList ++ marksFrom (position + 1) (held c rest) rest

def marksIn (s : List Char) : List (Token × Nat) := marksFrom 0 0 s

theorem filter_turn (c : Char) (rest : List Char) (position : Nat) :
    ((turn c rest).1.map (·, position)).filter (·.1.isMark) = ((mark? c).map (·, position)).toList := by
  unfold turn
  split
  case h_1 => cases rest <;> simp [literal, Token.isMark, mark?]
  case h_2 => cases classInner? rest <;> simp [literal, Token.isMark, mark?]
  case h_3 => cases variableName? rest <;> simp [literal, Token.isMark, mark?]
  case h_4 => split <;> simp [Token.isMark, mark?]
  case h_9 => simp_all [literal, Token.isMark, mark?]
  all_goals simp [Token.isMark, mark?]

theorem marksFrom_turn (c : Char) (rest : List Char) (position : Nat) :
    marksFrom position (turn c rest).2 rest = marksFrom position (held c rest) rest := by
  unfold turn
  split
  case h_1 => cases rest <;> rfl
  case h_2 => cases found : classInner? rest <;> simp [held, found]
  case h_3 => cases found : variableName? rest <;> simp [held, found]
  case h_4 =>
    split
    next twice =>
      obtain ⟨behind, rfl⟩ := head?_eq_some_iff.mp twice
      rfl
    · rfl
  case h_9 => simp_all [held]
  all_goals rfl

theorem filter_placedFrom (position skip : Nat) (s : List Char) :
    (placedFrom position skip s).filter (·.1.isMark) = marksFrom position skip s := by
  induction s generalizing position skip with
  | nil => cases skip <;> rfl
  | cons c rest ih =>
    cases skip with
    | zero => rw [placedFrom, filter_append, filter_turn, ih, marksFrom_turn, marksFrom]
    | succ skip => rw [placedFrom, ih, marksFrom]

theorem filter_placed (s : List Char) : (placed s).filter (·.1.isMark) = marksIn s := by
  unfold placed
  split
  · exact filter_placedFrom 1 0 _
  · exact filter_placedFrom 0 0 _

/-! ## Roles -/

inductive Role where
  | plain
  | opening
  | separator
  | closing
  deriving DecidableEq, Repr

/-- Braces pair up where they open and close, and commas separate directly inside of a pair; `inside`
says whether there is a pair around the whole. -/
inductive Nested : Bool → List (Token × Role) → Prop
  | nil {inside : Bool} : Nested inside []
  | plain {inside : Bool} (token : Token) {rest : List (Token × Role)} (behind : Nested inside rest) :
      Nested inside ((token, .plain) :: rest)
  | separator {rest : List (Token × Role)} (behind : Nested true rest) :
      Nested true ((.comma, .separator) :: rest)
  | pair {inside : Bool} {inner rest : List (Token × Role)} (between : Nested true inner)
      (behind : Nested inside rest) :
      Nested inside ((.openBrace, .opening) :: inner ++ (.closeBrace, .closing) :: rest)

theorem Nested.append {inside : Bool} {first second : List (Token × Role)} (start : Nested inside first)
    (behind : Nested inside second) : Nested inside (first ++ second) := by
  induction start with
  | nil => exact behind
  | plain token _ ih => exact .plain token (ih behind)
  | separator _ ih => exact .separator (ih behind)
  | pair between _ _ ih =>
    rw [append_assoc]
    exact .pair between (ih behind)

def text (g : Glob) : List Char := g.regexBody.toList

theorem text_ofSeq (parts : List Glob) : (ofSeq parts).text = parts.flatMap text := by
  induction parts with
  | nil => rfl
  | cons g parts ih =>
    rw [flatMap_cons, ← ih]
    exact String.toList_append

def Token.text : Token → List Char
  | .atom a => a.regex.toList
  | .openBrace => (charRegex '{').toList
  | .comma => (charRegex ',').toList
  | .closeBrace => (charRegex '}').toList

def written : Token × Role → List Char
  | (token, .plain) => token.text
  | (_, .opening) => ['(']
  | (_, .separator) => ['|']
  | (_, .closing) => [')']

/-- In some well nested roles the tokens say this. -/
def Says (inside : Bool) (tokens : List Token) (text : List Char) : Prop :=
  ∃ roles, roles.map Prod.fst = tokens ∧ Nested inside roles ∧ roles.flatMap written = text

theorem Says.append {inside : Bool} {first second : List Token} {s t : List Char} (start : Says inside first s)
    (behind : Says inside second t) : Says inside (first ++ second) (s ++ t) := by
  obtain ⟨roles, rfl, nested, rfl⟩ := start
  obtain ⟨others, rfl, further, rfl⟩ := behind
  exact ⟨roles ++ others, by simp, nested.append further, by simp⟩

theorem says_plain (inside : Bool) (token : Token) : Says inside [token] token.text :=
  ⟨[(token, .plain)], rfl, .plain token .nil, by simp [written]⟩

def between (inside : Bool) : List Char := if inside then ['|'] else [',']

theorem says_comma (inside : Bool) : Says inside [.comma] (between inside) := by
  cases inside with
  | false => exact says_plain false .comma
  | true => exact ⟨[(.comma, .separator)], rfl, .separator .nil, rfl⟩

def textOf (inside : Bool) (alternatives : List (List Glob)) : List Char :=
  (between inside).intercalate (alternatives.map fun parts => parts.flatMap text)

theorem textOf_cons (inside : Bool) (g : Glob) (first : List Glob) (others : List (List Glob)) :
    textOf inside ((g :: first) :: others) = g.text ++ textOf inside (first :: others) := by
  cases others <;> simp [textOf, List.intercalate]

theorem textOf_separate (inside : Bool) (first : List Glob) {others : List (List Glob)} (some : others ≠ []) :
    textOf inside (first :: others) = first.flatMap text ++ (between inside ++ textOf inside others) := by
  obtain ⟨second, others, rfl⟩ := exists_cons_of_ne_nil some
  simp [textOf, List.intercalate]

theorem text_joined (alternatives : List (List Glob)) :
    (joined alternatives).flatMap text = textOf false alternatives := by
  induction alternatives with
  | nil => rfl
  | cons first others ih =>
    cases others with
    | nil => simp [joined, textOf, List.intercalate]
    | cons second others =>
      have split : joined (first :: second :: others) =
          first ++ .atom (.char ',') :: joined (second :: others) := by simp [joined, List.intercalate]
      rw [textOf_separate false first (by simp), ← ih, split, flatMap_append, flatMap_cons]
      rfl

theorem text_ofAlternatives (first : List Glob) (others : List (List Glob)) :
    (ofAlternatives (ofSeq first) (others.map ofSeq)).text = textOf true (first :: others) := by
  induction others generalizing first with
  | nil => simp [ofAlternatives, text_ofSeq, textOf, List.intercalate]
  | cons second others ih =>
    rw [textOf_separate true first (by simp), ← ih, ← text_ofSeq]
    simp [ofAlternatives, text, regexBody, between]

theorem says_of_alternatives {tokens : List Token} {alternatives : List (List Glob)}
    (paired : Alternatives tokens alternatives) (inside : Bool) :
    Says inside tokens (textOf inside alternatives) := by
  induction paired generalizing inside with
  | nil => exact ⟨[], rfl, .nil, rfl⟩
  | atom a _ ih =>
    rw [textOf_cons]
    exact (says_plain inside (.atom a)).append (ih inside)
  | comma others ih =>
    rw [textOf_separate inside [] others.ne_nil]
    exact (says_comma inside).append (ih inside)
  | @group inner tokens innerFirst first innerOthers others _ _ insideIh ih =>
    obtain ⟨roles, rfl, nested, same⟩ := insideIh true
    have group : Says inside (.openBrace :: roles.map Prod.fst ++ [.closeBrace]) (choice innerFirst innerOthers).text := by
      refine ⟨(.openBrace, .opening) :: roles ++ [(.closeBrace, .closing)], by simp, .pair nested .nil, ?_⟩
      have body := text_ofAlternatives innerFirst innerOthers
      simp only [text] at body ⊢
      simp [written, same, choice, regexBody, body]
    rw [textOf_cons]
    simpa using group.append (ih inside)

theorem says_of_unclosed {tokens : List Token} {parts : List Glob} (ends : Unclosed tokens parts) :
    Says false tokens (parts.flatMap text) := by
  induction ends with
  | balanced paired =>
    rw [text_joined]
    exact says_of_alternatives paired false
  | openBrace paired _ ih =>
    rw [flatMap_append, flatMap_cons, text_joined]
    exact (says_of_alternatives paired false).append ((says_plain false .openBrace).append ih)

theorem says_of_written {tokens : List Token} {parts : List Glob} (written : Written tokens parts) :
    Says false tokens (parts.flatMap text) := by
  induction written with
  | unclosed ends => exact says_of_unclosed ends
  | closeBrace paired _ ih =>
    rw [flatMap_append, flatMap_cons, text_joined]
    exact (says_of_alternatives paired false).append ((says_plain false .closeBrace).append ih)

theorem says_tokens (s : List Char) : Says false (tokens s) (ofText s).text := by
  obtain ⟨parts, written⟩ := exists_written (tokens s)
  rw [ofText, ofTokens_of_written written, text_ofSeq]
  exact says_of_written written

/-! ## Reading a regular expression -/

/-- Where a character of a regular expression stands. -/
inductive Region where
  | text
  | escape
  | classStart
  | negatedStart
  | inClass
  | classEscape
  deriving DecidableEq, Repr

namespace Region

def behindMember : Char → Option Region
  | '\\' => some .classEscape
  | '[' => none
  | ']' => some .text
  | _ => some .inClass

/-- Behind the first character of a class, where a closing bracket is a member. -/
def behindFirst : Char → Option Region
  | ']' => some .inClass
  | c => behindMember c

end Region

/-- A place in a regular expression, with the number of groups around it. -/
structure Spot where
  depth : Nat
  region : Region
  deriving DecidableEq, Repr

namespace Spot

def outside (depth : Nat) : Char → Option Spot
  | '\\' => some ⟨depth, .escape⟩
  | '[' => some ⟨depth, .classStart⟩
  | '(' => some ⟨depth + 1, .text⟩
  | ')' => if depth = 0 then none else some ⟨depth - 1, .text⟩
  | '|' => if depth = 0 then none else some ⟨depth, .text⟩
  | _ => some ⟨depth, .text⟩

/-- The place behind a character; none if it closes a group that is not open, or separates
alternatives outside of all groups. -/
def advance (spot : Spot) (c : Char) : Option Spot :=
  match spot.region with
  | .text => outside spot.depth c
  | .escape => some ⟨spot.depth, .text⟩
  | .classStart => if c = '^' then some ⟨spot.depth, .negatedStart⟩ else (Region.behindFirst c).map (⟨spot.depth, ·⟩)
  | .negatedStart => (Region.behindFirst c).map (⟨spot.depth, ·⟩)
  | .inClass => (Region.behindMember c).map (⟨spot.depth, ·⟩)
  | .classEscape => some ⟨spot.depth, .inClass⟩

def scan (spot : Spot) (s : List Char) : Option Spot := s.foldlM advance spot

theorem scan_cons (spot : Spot) (c : Char) (s : List Char) :
    spot.scan (c :: s) = (spot.advance c).bind (·.scan s) := rfl

theorem scan_append {spot next : Spot} (start : spot.scan s = some next) (t : List Char) :
    spot.scan (s ++ t) = next.scan t := by
  unfold scan at start ⊢
  rw [foldlM_append, start]
  rfl

end Spot

/-- Read inside of a number of groups, a text leaves as many of them open. -/
def Balanced (depth : Nat) (s : List Char) : Prop := Spot.scan ⟨depth, .text⟩ s = some ⟨depth, .text⟩

theorem Balanced.append {t : List Char} (start : Balanced depth s) (behind : Balanced depth t) :
    Balanced depth (s ++ t) := by
  rw [Balanced, Spot.scan_append start]
  exact behind

theorem Balanced.group (inside : Balanced (depth + 1) s) : Balanced depth ('(' :: s ++ [')']) :=
  Spot.scan_append inside [')']

theorem balanced_separator (around : depth ≠ 0) : Balanced depth ['|'] := by
  simp [Balanced, Spot.scan, Spot.advance, Spot.outside, around]

theorem balanced_charRegex (c : Char) (depth : Nat) : Balanced depth (charRegex c).toList := by
  unfold charRegex
  split
  · rw [String.toList_ofList]; rfl
  next plain =>
    simp only [isRegexSpecial, Bool.or_eq_true, beq_iff_eq, not_or] at plain
    rw [String.toList_singleton, Balanced, Spot.scan_cons, Spot.advance, Spot.outside] <;> simp_all
    rfl

/-! ## Classes -/

/-- The text of a class behind its first character: a bracket stands only behind a backslash. -/
inductive ClassText : List Char → Prop
  | nil : ClassText []
  | escaped (c : Char) {rest : List Char} (behind : ClassText rest) : ClassText ('\\' :: c :: rest)
  | plain {c : Char} {rest : List Char} (noEscape : c ≠ '\\') (noOpening : c ≠ '[') (noClosing : c ≠ ']')
      (behind : ClassText rest) : ClassText (c :: rest)

theorem behindMember_of_ne (noEscape : c ≠ '\\') (noOpening : c ≠ '[') (noClosing : c ≠ ']') :
    Region.behindMember c = some .inClass := by
  unfold Region.behindMember
  split <;> simp_all

theorem ClassText.scan (members : ClassText s) (depth : Nat) :
    Spot.scan ⟨depth, .inClass⟩ s = some ⟨depth, .inClass⟩ := by
  induction members with
  | nil => rfl
  | escaped c _ ih => exact ih
  | plain noEscape noOpening noClosing _ ih =>
    rw [Spot.scan_cons, Spot.advance, behindMember_of_ne noEscape noOpening noClosing]
    exact ih

theorem ClassText.scan_negatedStart (members : ClassText s) (nonempty : s ≠ []) (depth : Nat) :
    Spot.scan ⟨depth, .negatedStart⟩ s = some ⟨depth, .inClass⟩ := by
  have usual := members.scan depth
  cases members with
  | nil => exact absurd rfl nonempty
  | escaped c behind => exact usual
  | plain _ _ noClosing behind =>
    rwa [Spot.scan_cons, Spot.advance, Region.behindFirst.eq_2 _ noClosing]

theorem ClassText.scan_classStart (members : ClassText s) (nonempty : s ≠ []) (noCaret : s.head? ≠ some '^')
    (depth : Nat) : Spot.scan ⟨depth, .classStart⟩ s = some ⟨depth, .inClass⟩ := by
  have usual := members.scan_negatedStart nonempty depth
  obtain ⟨c, rest, rfl⟩ := exists_cons_of_ne_nil nonempty
  have noCaret : c ≠ '^' := by simpa using noCaret
  rwa [Spot.scan_cons, Spot.advance, if_neg noCaret]

theorem alphanumeric_ne {sign : Char} (letter : Text.isAlphanumeric c)
    (noLetter : Text.isAlphanumeric sign = false) : c ≠ sign := by
  rintro rfl
  rw [letter] at noLetter
  cases noLetter

theorem ne_backslash (noEscape : ∀ next behind, c = '\\' → rest = next :: behind → False)
    (notLast : c = '\\' → rest = [] → False) : c ≠ '\\' := by
  intro same
  cases rest with
  | nil => exact notLast same rfl
  | cons next behind => exact noEscape next behind same rfl

theorem classText_of_classBody? (found : classBody? s = some body) : ClassText (classRegex body) := by
  fun_induction classBody? s generalizing body with
  | case1 => cases found
  | case2 c rest ih =>
    obtain ⟨inner, isBody, rfl⟩ := map_eq_some_iff.mp found
    rw [classRegex]
    split
    next letter =>
      exact .plain (alphanumeric_ne letter rfl) (alphanumeric_ne letter rfl) (alphanumeric_ne letter rfl) (ih isBody)
    · exact .escaped c (ih isBody)
  | case3 => cases found
  | case4 =>
    cases found
    exact .nil
  | case5 c rest noEscape notLast noClosing ih =>
    obtain ⟨inner, isBody, rfl⟩ := map_eq_some_iff.mp found
    have noBackslash := ne_backslash noEscape notLast
    by_cases opening : c = '['
    · subst opening
      exact .escaped '[' (ih isBody)
    · rw [classRegex.eq_4 c inner (fun _ _ same => absurd same noBackslash) opening]
      exact .plain noBackslash opening noClosing (ih isBody)

theorem head?_of_classBody? (found : classBody? s = some body) (noBracket : s.head? ≠ some ']') :
    classRegex body ≠ [] ∧ ((classRegex body).head? = some '^' → s.head? = some '^') := by
  unfold classBody? at found
  split at found
  · cases found
  next c rest =>
    obtain ⟨inner, _, rfl⟩ := map_eq_some_iff.mp found
    rw [classRegex]
    split
    next letter =>
      have noCaret : c ≠ '^' := alphanumeric_ne letter rfl
      simp [noCaret]
    · simp
  · cases found
  · exact absurd rfl noBracket
  next c rest noEscape notLast _ =>
    obtain ⟨inner, _, rfl⟩ := map_eq_some_iff.mp found
    have noBackslash := ne_backslash noEscape notLast
    by_cases opening : c = '['
    · subst opening
      simp [classRegex]
    · rw [classRegex.eq_4 c inner (fun _ _ same => absurd same noBackslash) opening]
      simp

theorem balanced_class (found : classInner? s = some inner) (depth : Nat) :
    Balanced depth ('[' :: classRegex inner ++ [']']) := by
  have scanned : Spot.scan ⟨depth, .classStart⟩ (classRegex inner) = some ⟨depth, .inClass⟩ := by
    unfold classInner? at found
    split at found
    next rest =>
      obtain ⟨body, isBody, rfl⟩ := map_eq_some_iff.mp found
      exact (classText_of_classBody? isBody).scan depth
    next rest noBracket =>
      obtain ⟨body, isBody, rfl⟩ := map_eq_some_iff.mp found
      have first : rest.head? ≠ some ']' := fun bracket => by
        obtain ⟨behind, rfl⟩ := head?_eq_some_iff.mp bracket
        exact noBracket behind rfl
      exact (classText_of_classBody? isBody).scan_negatedStart (head?_of_classBody? isBody first).1 depth
    next rest =>
      obtain ⟨body, isBody, rfl⟩ := map_eq_some_iff.mp found
      exact (classText_of_classBody? isBody).scan depth
    next _ noCaret noBracket =>
      have first : s.head? ≠ some ']' := fun bracket => by
        obtain ⟨behind, shape⟩ := head?_eq_some_iff.mp bracket
        exact noBracket behind shape
      obtain ⟨nonempty, same⟩ := head?_of_classBody? found first
      refine (classText_of_classBody? found).scan_classStart nonempty (fun caret => ?_) depth
      obtain ⟨behind, shape⟩ := head?_eq_some_iff.mp (same caret)
      exact noCaret behind shape
  exact Spot.scan_append scanned [']']

/-! ## Tokens -/

/-- A class among the tokens has been read from a text. -/
def Token.IsRead (token : Token) : Prop :=
  ∀ inner, token = .atom (.oneOf inner) → ∃ text, classInner? text = some inner

theorem isRead_of_mem_turn {token : Token} (member : token ∈ (turn c rest).1) : token.IsRead := by
  rintro inner rfl
  unfold turn at member
  split at member
  case h_1 => cases rest <;> simp [literal] at member
  case h_2 =>
    cases found : classInner? rest with
    | none => simp [found, literal] at member
    | some text =>
      obtain rfl : inner = text := by simpa [found] using member
      exact ⟨rest, found⟩
  case h_3 => cases found : variableName? rest <;> simp [found, literal] at member
  case h_4 => split at member <;> simp at member
  all_goals simp [literal] at member

theorem isRead_of_mem_tokensFrom {skip : Nat} {token : Token} (member : token ∈ tokensFrom skip s) :
    token.IsRead := by
  induction s generalizing skip with
  | nil => cases skip <;> cases member
  | cons c rest ih =>
    cases skip with
    | succ skip => exact ih member
    | zero =>
      rw [tokensFrom_cons, mem_append] at member
      exact member.elim isRead_of_mem_turn ih

theorem balanced_token {token : Token} (isRead : token.IsRead) (depth : Nat) : Balanced depth token.text := by
  cases token with
  | atom a =>
    cases a with
    | char c => exact balanced_charRegex c depth
    | one => rfl
    | run crossing => cases crossing <;> rfl
    | oneOf inner =>
      obtain ⟨text, found⟩ := isRead inner rfl
      simpa [Token.text, Atom.regex] using balanced_class found depth
  | openBrace => exact balanced_charRegex '{' depth
  | comma => exact balanced_charRegex ',' depth
  | closeBrace => exact balanced_charRegex '}' depth

theorem balanced_written {roles : List (Token × Role)} {inside : Bool} (nested : Nested inside roles)
    (areRead : ∀ entry ∈ roles, entry.1.IsRead) (around : inside → depth ≠ 0) :
    Balanced depth (roles.flatMap written) := by
  induction nested generalizing depth with
  | nil => rfl
  | plain token _ ih =>
    rw [forall_mem_cons] at areRead
    exact (balanced_token areRead.1 depth).append (ih areRead.2 around)
  | separator _ ih =>
    rw [forall_mem_cons] at areRead
    exact (balanced_separator (around rfl)).append (ih areRead.2 around)
  | pair _ _ ihInner ihRest =>
    simp only [forall_mem_cons, forall_mem_append] at areRead
    obtain ⟨⟨_, innerRead⟩, _, restRead⟩ := areRead
    have group := (ihInner innerRead fun _ => depth.succ_ne_zero).group
    simpa [written] using group.append (ihRest restRead around)

/-- Looking for marks finds those of the tokens, at the same positions.  The regular expression is
written from the tokens in roles that are well nested, so that between its anchors every group is
closed and no alternative is separated outside of all groups. -/
theorem regex_anchored (s : List Char) :
    (placed s).map Prod.fst = tokens s ∧ (placed s).filter (·.1.isMark) = marksIn s ∧
      ∃ roles, roles.map Prod.fst = tokens s ∧ Nested false roles ∧
        (ofText s).regex.toList = '^' :: roles.flatMap written ++ ['$'] ∧
        Balanced 0 (roles.flatMap written) := by
  obtain ⟨roles, same, nested, told⟩ := says_tokens s
  refine ⟨map_fst_placed s, filter_placed s, roles, same, nested, ?_, ?_⟩
  · simp [regex, told, text]
  · refine balanced_written nested (fun entry member => ?_) nofun
    have among : entry.1 ∈ tokens s := same ▸ List.mem_map_of_mem member
    rw [tokens_eq] at among
    exact isRead_of_mem_tokensFrom among

end ArmorPolicy.Glob
