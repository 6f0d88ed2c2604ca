import ArmorPolicy.Glob.Basic
import ArmorPolicy.Glob.CharClass

/-!
# The language of a glob

What a glob means, said without the reader and the matcher.  `Spells` cuts the text of a glob into
tokens, `Written` pairs the braces among the tokens, and `Matches` says which texts a part of a glob
stands for behind a given character.  The language of a glob is put together from the three.
-/

namespace ArmorPolicy.Glob

/-! ## Tokens -/

def IsNameChar (c : Char) : Prop := (Text.isAlphanumeric c || c == '_') = true

/-- A variable stands at the start: its sign, and a name between braces. -/
def StartsVariable (s : List Char) : Prop :=
  ∃ name rest, name ≠ [] ∧ (∀ c ∈ name, IsNameChar c) ∧ s = '@' :: '{' :: name ++ '}' :: rest

/-- The characters that act as a sign when no backslash stands before them. -/
def signs : List Char := ['\\', '[', '*', '?', '{', '}', ',']

/-- The tokens that the text of a glob without classes spells. -/
inductive Spells : List Char → List Token → Prop
  | nil : Spells [] []
  | lastBackslash : Spells ['\\'] [literal '\\']
  | escaped (c : Char) {rest : List Char} {tokens : List Token} (spelled : Spells rest tokens) :
      Spells ('\\' :: c :: rest) (literal c :: tokens)
  | variableName (name : List Char) {rest : List Char} {tokens : List Token} (named : name ≠ [])
      (letters : ∀ c ∈ name, IsNameChar c) (spelled : Spells rest tokens) :
      Spells ('@' :: '{' :: name ++ '}' :: rest) (('@' :: '{' :: name ++ ['}']).map literal ++ tokens)
  | crossingRun {rest : List Char} {tokens : List Token} (spelled : Spells rest tokens) :
      Spells ('*' :: '*' :: rest) (.atom (.run true) :: tokens)
  | run {rest : List Char} {tokens : List Token} (single : rest.head? ≠ some '*')
      (spelled : Spells rest tokens) : Spells ('*' :: rest) (.atom (.run false) :: tokens)
  | one {rest : List Char} {tokens : List Token} (spelled : Spells rest tokens) :
      Spells ('?' :: rest) (.atom .one :: tokens)
  | openBrace {rest : List Char} {tokens : List Token} (spelled : Spells rest tokens) :
      Spells ('{' :: rest) (.openBrace :: tokens)
  | closeBrace {rest : List Char} {tokens : List Token} (spelled : Spells rest tokens) :
      Spells ('}' :: rest) (.closeBrace :: tokens)
  | comma {rest : List Char} {tokens : List Token} (spelled : Spells rest tokens) :
      Spells (',' :: rest) (.comma :: tokens)
  | plain (c : Char) {rest : List Char} {tokens : List Token} (noSign : c ∉ signs)
      (noVariable : ¬ StartsVariable (c :: rest)) (spelled : Spells rest tokens) :
      Spells (c :: rest) (literal c :: tokens)

def withoutCaret : List Char → List Char
  | '^' :: rest => rest
  | s => s

/-! ## Braces -/

/-- A choice among alternatives, each given by its parts. -/
def choice (first : List Glob) (others : List (List Glob)) : Glob :=
  .group (ofAlternatives (ofSeq first) (others.map ofSeq))

/-- In the tokens every brace has its partner, and the commas outside of all braces divide them into
alternatives. -/
inductive Alternatives : List Token → List (List Glob) → Prop
  | nil : Alternatives [] [[]]
  | atom (a : Atom) {tokens : List Token} {first : List Glob} {others : List (List Glob)}
      (rest : Alternatives tokens (first :: others)) :
      Alternatives (.atom a :: tokens) ((.atom a :: first) :: others)
  | comma {tokens : List Token} {others : List (List Glob)} (rest : Alternatives tokens others) :
      Alternatives (.comma :: tokens) ([] :: others)
  | group {inner tokens : List Token} {innerFirst first : List Glob}
      {innerOthers others : List (List Glob)} (inside : Alternatives inner (innerFirst :: innerOthers))
      (rest : Alternatives tokens (first :: others)) :
      Alternatives (.openBrace :: inner ++ .closeBrace :: tokens)
        ((choice innerFirst innerOthers :: first) :: others)

/-- Where no brace is open around them, commas stand for themselves. -/
def joined (alternatives : List (List Glob)) : List Glob :=
  [Glob.atom (.char ',')].intercalate alternatives

/-- The parts of a glob in which some opening braces have no partner. -/
inductive Unclosed : List Token → List Glob → Prop
  | balanced {tokens : List Token} {alternatives : List (List Glob)}
      (paired : Alternatives tokens alternatives) : Unclosed tokens (joined alternatives)
  | openBrace {tokens rest : List Token} {alternatives : List (List Glob)} {parts : List Glob}
      (paired : Alternatives tokens alternatives) (behind : Unclosed rest parts) :
      Unclosed (tokens ++ .openBrace :: rest) (joined alternatives ++ .atom (.char '{') :: parts)

/-- The parts of a glob.  Closing braces without a partner can only stand before all opening braces
without one. -/
inductive Written : List Token → List Glob → Prop
  | unclosed {tokens : List Token} {parts : List Glob} (ends : Unclosed tokens parts) :
      Written tokens parts
  | closeBrace {tokens rest : List Token} {alternatives : List (List Glob)} {parts : List Glob}
      (paired : Alternatives tokens alternatives) (behind : Written rest parts) :
      Written (tokens ++ .closeBrace :: rest) (joined alternatives ++ .atom (.char '}') :: parts)

/-! ## Classes -/

/-- Reads the escapes of a class.  An escaped letter or digit is that character itself, and an
opening bracket is always literal. -/
def classChars : List Char → List ClassChar
  | [] => []
  | '\\' :: c :: rest => ⟨c, !Text.isAlphanumeric c⟩ :: classChars rest
  | '[' :: rest => ⟨'[', true⟩ :: classChars rest
  | c :: rest => ⟨c, false⟩ :: classChars rest

def CharClass.ofText? (inner : List Char) : Option CharClass := ofChars? (classChars inner)

/-! ## Texts -/

def lastOf (before : Option Char) (text : List Char) : Option Char := text.getLast?.or before

/-- The texts that a part of a glob stands for, where `before` is the character just before them. -/
inductive Matches : Option Char → Glob → List Char → Prop
  | empty {before : Option Char} : Matches before .empty []
  | char {before : Option Char} (c : Char) : Matches before (.atom (.char c)) [c]
  | one {before : Option Char} (c : Char) (notSlash : c ≠ '/') (notNul : c ≠ '\x00') :
      Matches before (.atom .one) [c]
  /-- A run must not be empty exactly if a slash stands before it. -/
  | run {before : Option Char} (crossing : Bool) (text : List Char)
      (allowed : ∀ c ∈ text, c ≠ '\x00' ∧ (crossing = false → c ≠ '/'))
      (behindSlash : before = some '/' → text ≠ []) : Matches before (.atom (.run crossing)) text
  | oneOf {before : Option Char} (inner : List Char) (cls : CharClass) (c : Char)
      (meaning : CharClass.ofText? inner = some cls) (member : cls.contains c = true) :
      Matches before (.atom (.oneOf inner)) [c]
  | seq {before : Option Char} {first second : Glob} {text further : List Char}
      (start : Matches before first text) (rest : Matches (lastOf before text) second further) :
      Matches before (.seq first second) (text ++ further)
  | altFirst {before : Option Char} {first second : Glob} {text : List Char}
      (start : Matches before first text) : Matches before (.alt first second) text
  | altSecond {before : Option Char} {first second : Glob} {text : List Char}
      (start : Matches before second text) : Matches before (.alt first second) text
  | group {before : Option Char} {inner : Glob} {text : List Char}
      (inside : Matches before inner text) : Matches before (.group inner) text

def Denotes (glob : List Char) (parts : List Glob) : Prop :=
  ∃ tokens, Spells (withoutCaret glob) tokens ∧ Written tokens parts

def InLanguage (glob text : List Char) : Prop :=
  ∃ parts, Denotes glob parts ∧ Matches none (ofSeq parts) text

end ArmorPolicy.Glob
