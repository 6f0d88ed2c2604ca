import ArmorPolicy.Proofs.Line.Statement
import Mathlib.Data.List.Infix

/-!
# Paths and targets are read as written

A path or target without blanks reaches as far as it can, one between quotation marks to the next
mark.  Both are read back from a line where what follows them cannot be read any further on.
-/

namespace ArmorPolicy.Line

open List Option Text

variable {path s : List Char} {target : Option (List Char)} {α : Type} {read : List Char → Option α}

/-! ## Paths -/

/-- Paths as they stand in a line, apart from quoted ones that start with a variable and have no
space. -/
inductive PathText : List Char → Prop where
  | plain {part : List Char} (solid : ∀ c ∈ part, isSolid c = true) : PathText ('/' :: part)
  | braced {first : Char} {name part : List Char} (firstSolid : isSolid first = true)
      (nameSolid : ∀ c ∈ name, isSolid c = true) (noBrace : '}' ∉ name)
      (solid : ∀ c ∈ part, isSolid c = true) :
      PathText ('@' :: '{' :: first :: (name ++ '}' :: part))
  | quoted {inner : List Char} (noMark : '"' ∉ inner) : PathText ('"' :: '/' :: (inner ++ ['"']))
  | quotedVariable {first : Char} {name inner : List Char} (firstSolid : isSolid first = true)
      (nameSolid : ∀ c ∈ name, isSolid c = true) (noMark : '"' ∉ name ++ '}' :: inner)
      (space : ' ' ∈ inner) :
      PathText ('"' :: '@' :: '{' :: first :: (name ++ '}' :: (inner ++ ['"'])))

theorem upToBrace?_append {name : List Char} (solid : ∀ c ∈ name, isSolid c)
    (noBrace : '}' ∉ name) (rest : List Char) :
    upToBrace? (name ++ '}' :: rest) = some (name ++ ['}'], rest) := by
  induction name with
  | nil => simp [upToBrace?]
  | cons c name ih =>
    rw [forall_mem_cons] at solid
    rw [mem_cons, not_or] at noBrace
    simp [upToBrace?, Ne.symm noBrace.1, solid.1, ih solid.2 noBrace.2]

theorem upToBrace?_eq_some {name rest : List Char} (found : upToBrace? s = some (name, rest)) :
    ∃ inner, name = inner ++ ['}'] ∧ s = inner ++ '}' :: rest ∧ '}' ∉ inner ∧ ∀ c ∈ inner, isSolid c := by
  induction s generalizing name with
  | nil => cases found
  | cons c s ih =>
    simp only [upToBrace?] at found
    split at found
    next brace =>
      cases found
      exact ⟨[], by simp [brace], by simp [brace], by simp, by simp⟩
    next other =>
      split at found
      next solid =>
        obtain ⟨⟨name, rest⟩, further, ⟨⟩⟩ := map_eq_some_iff.mp found
        obtain ⟨inner, rfl, rfl, noBrace, innerSolid⟩ := ih further
        refine ⟨c :: inner, rfl, rfl, ?_, by simpa [solid] using innerSolid⟩
        simpa [noBrace] using Ne.symm other
      · cases found

/-! ### Between quotation marks -/

/-- The closing brace of a variable between quotation marks, and what follows it. -/
def closing? (read : List Char → Option α) : List Char → Option (List Char × α)
  | '}' :: rest => behind ['}'] (quotedRest? read rest)
  | _ => none

theorem quotedVariableRest?_eq (read : List Char → Option α) (s : List Char) :
    quotedVariableRest? read s =
      (longestPart? isSolid (closing? read) s).map fun (name, rest, value) => (name ++ rest, value) := rfl

theorem quotedRest?_eq_some_iff {value : α} :
    quotedRest? read s = some (path, value) ↔
      ∃ inner rest, s = inner ++ '"' :: rest ∧ '"' ∉ inner ∧ read rest = some value ∧
        path = inner ++ ['"'] := by
  simp only [quotedRest?, bind_eq_some_iff, map_eq_some_iff, Prod.exists, upTo?_eq_some_iff, Prod.mk.injEq]
  constructor
  · rintro ⟨inner, rest, ⟨rfl, absent⟩, _, found, rfl, rfl⟩
    exact ⟨inner, rest, rfl, absent, found, rfl⟩
  · rintro ⟨inner, rest, rfl, absent, found, rfl⟩
    exact ⟨inner, rest, ⟨rfl, absent⟩, value, found, rfl, rfl⟩

theorem closing?_eq_some {part : List Char} {value : α} (found : closing? read s = some (part, value)) :
    ∃ inner rest, s = '}' :: inner ++ '"' :: rest ∧ '"' ∉ inner ∧ read rest = some value ∧
      part = '}' :: inner ++ ['"'] := by
  unfold closing? at found
  split at found
  next u =>
    obtain ⟨⟨inside, _⟩, quoted, ⟨⟩⟩ := map_eq_some_iff.mp found
    obtain ⟨inner, rest, rfl, absent, success, rfl⟩ := quotedRest?_eq_some_iff.mp quoted
    exact ⟨inner, rest, rfl, absent, success, rfl⟩
  · cases found

theorem closing?_append {inner rest : List Char} {value : α} (absent : '"' ∉ inner) (found : read rest = some value) :
    closing? read ('}' :: inner ++ '"' :: rest) = some ('}' :: inner ++ ['"'], value) := by
  have quoted : quotedRest? read (inner ++ '"' :: rest) = some (inner ++ ['"'], value) :=
    quotedRest?_eq_some_iff.mpr ⟨inner, rest, rfl, absent, found, rfl⟩
  simp [closing?, quoted, behind]

theorem quotedVariableRest?_append {first : Char} {name inner rest : List Char} {value : α}
    (firstSolid : isSolid first) (nameSolid : ∀ c ∈ name, isSolid c) (noMark : '"' ∉ name ++ '}' :: inner)
    (space : ' ' ∈ inner) (found : read rest = some value) :
    quotedVariableRest? read (first :: (name ++ '}' :: (inner ++ '"' :: rest))) =
      some (first :: (name ++ '}' :: (inner ++ ['"'])), value) := by
  have closes : (closing? read ('}' :: inner ++ '"' :: rest)).isSome :=
    isSome_of_eq_some (closing?_append (fun mark => noMark (by simp [mark])) found)
  obtain ⟨⟨part, text, last⟩, longest⟩ :=
    isSome_iff_exists.mp (longest?_isSome_iff.mpr ⟨name, _, rfl, nameSolid, closes⟩)
  obtain ⟨tail, split, partSolid, ends, _⟩ := longest?_eq_some longest
  obtain ⟨inside, behindMark, rfl, noInside, success, rfl⟩ := closing?_eq_some ends
  have noPart : '"' ∉ part := by
    intro mark
    rw [← append_assoc] at split
    rcases append_eq_append_iff.mp split with ⟨more, rfl, _⟩ | ⟨more, same, _⟩
    · exact absurd (partSolid ' ' (by simp [space])) (by decide)
    · exact noMark (same ▸ mem_append_left _ mark)
  have absent : '"' ∉ part ++ '}' :: inside := by simp [noPart, noInside]
  have cut := upTo?_append noMark rest
  have again := upTo?_append absent behindMark
  rw [append_assoc] at cut again
  rw [split, again] at cut
  obtain ⟨same, rfl⟩ := Prod.mk.inj (Option.some.inj cut)
  rw [found] at success
  cases success
  have whole : part ++ '}' :: (inside ++ ['"']) = name ++ '}' :: (inner ++ ['"']) := by
    simpa using congrArg (· ++ ['"']) same
  rw [cons_append] at longest
  simp [quotedVariableRest?_eq, longestPart?, firstSolid, longest, behind, whole]

theorem PathText.path?_append {rest : List Char} {value : α} (valid : PathText path)
    (later : ∀ start suffix, rest = start ++ suffix → start ≠ [] → (∀ c ∈ start, isSolid c) →
      read suffix = none) (found : read rest = some value) :
    path? read (path ++ rest) = some (path, value) := by
  cases valid with
  | plain solid => simp [path?, longest?_append solid later found, behind]
  | @braced first name part firstSolid nameSolid noBrace solid =>
    have inner := upToBrace?_append nameSolid noBrace (part ++ rest)
    simp [path?, variableRest?, firstSolid, inner, longest?_append solid later found, behind]
  | @quoted inner noMark => simp [path?, quotedRest?, upTo?_append noMark, found, behind]
  | quotedVariable firstSolid nameSolid noMark space =>
    simp [path?, quotedVariableRest?_append firstSolid nameSolid noMark space found, behind]

theorem PathText.starts (valid : PathText path) : ∃ c rest, path = c :: rest ∧ c ∈ ['/', '@', '"'] := by
  cases valid with
  | plain _ => exact ⟨_, _, rfl, by simp⟩
  | braced _ _ _ _ => exact ⟨_, _, rfl, by simp⟩
  | quoted _ => exact ⟨_, _, rfl, by simp⟩
  | quotedVariable _ _ _ _ => exact ⟨_, _, rfl, by simp⟩

theorem PathText.startsSolid (valid : PathText path) : StartsSolid path := by
  obtain ⟨c, rest, rfl, among⟩ := valid.starts
  have solid : ∀ c ∈ ['/', '@', '"'], isSolid c := by decide
  exact ⟨c, rest, rfl, solid c among⟩

theorem PathText.solid (valid : PathText path) (noMark : '"' ∉ path) : ∀ c ∈ path, isSolid c := by
  cases valid with
  | plain solid => simpa using ⟨by decide, solid⟩
  | braced firstSolid nameSolid noBrace solid =>
    intro c member
    simp only [List.mem_cons, List.mem_append] at member
    rcases member with rfl | rfl | rfl | inName | rfl | inPart
    · decide
    · decide
    · exact firstSolid
    · exact nameSolid c inName
    · decide
    · exact solid c inPart
  | quoted _ => simp at noMark
  | quotedVariable _ _ _ _ => simp at noMark

theorem exists_sign_of_path? {value : α} (found : path? read s = some (path, value)) :
    ∃ c rest, s = c :: rest ∧ c ∈ ['/', '@', '"'] := by
  unfold path? at found
  split at found
  next rest => exact ⟨'/', rest, rfl, by decide⟩
  next rest => exact ⟨'@', '{' :: rest, rfl, by decide⟩
  next rest => exact ⟨'"', '/' :: rest, rfl, by decide⟩
  next rest => exact ⟨'"', '@' :: '{' :: rest, rfl, by decide⟩
  · cases found

theorem variableRest?_eq_some {value : α} (found : variableRest? read s = some (path, value)) :
    PathText ('@' :: '{' :: path) ∧ ∃ rest, s = path ++ rest ∧ read rest = some value := by
  cases s with
  | nil => cases found
  | cons c s =>
    simp only [variableRest?] at found
    split at found
    next firstSolid =>
      obtain ⟨⟨name, tail⟩, brace, further⟩ := bind_eq_some_iff.mp found
      obtain ⟨⟨part, value⟩, success, ⟨⟩⟩ := map_eq_some_iff.mp further
      obtain ⟨inner, rfl, rfl, noBrace, nameSolid⟩ := upToBrace?_eq_some brace
      obtain ⟨rest, rfl, solid, readable, _⟩ := longest?_eq_some success
      refine ⟨?_, rest, by simp, readable⟩
      have valid := PathText.braced firstSolid nameSolid noBrace solid
      simpa using valid
    · cases found

theorem exists_read_of_path? {value : α} (found : path? read s = some (path, value)) :
    ∃ rest, read rest = some value := by
  have inner : ∀ {start : List Char} {found : Option (List Char × α)},
      behind start found = some (path, value) → ∃ part, found = some (part, value) := by
    intro start found success
    obtain ⟨⟨part, _⟩, further, ⟨⟩⟩ := map_eq_some_iff.mp success
    exact ⟨part, further⟩
  unfold path? at found
  split at found
  · obtain ⟨part, further⟩ := inner found
    obtain ⟨rest, _, _, readable, _⟩ := longest?_eq_some further
    exact ⟨rest, readable⟩
  · obtain ⟨part, further⟩ := inner found
    obtain ⟨_, rest, _, readable⟩ := variableRest?_eq_some further
    exact ⟨rest, readable⟩
  · obtain ⟨part, further⟩ := inner found
    obtain ⟨_, rest, _, _, readable, _⟩ := quotedRest?_eq_some_iff.mp further
    exact ⟨rest, readable⟩
  · obtain ⟨part, further⟩ := inner found
    rw [quotedVariableRest?_eq] at further
    obtain ⟨⟨_, _, _⟩, closed, ⟨⟩⟩ := map_eq_some_iff.mp further
    obtain ⟨_, _, _, closing, _⟩ := longest?_eq_some (longestPart?_eq_some_iff.mp closed).2
    obtain ⟨_, rest, _, _, readable, _⟩ := closing?_eq_some closing
    exact ⟨rest, readable⟩
  · cases found

theorem path?_eq_some {value : α} (found : path? read s = some (path, value)) (noMark : '"' ∉ s) :
    PathText path ∧ ∃ rest, s = path ++ rest ∧ read rest = some value := by
  unfold path? at found
  split at found
  next s =>
    obtain ⟨⟨part, value⟩, further, ⟨⟩⟩ := map_eq_some_iff.mp found
    obtain ⟨rest, rfl, solid, readable, _⟩ := longest?_eq_some further
    exact ⟨.plain solid, rest, rfl, readable⟩
  next s =>
    obtain ⟨⟨part, value⟩, further, ⟨⟩⟩ := map_eq_some_iff.mp found
    obtain ⟨valid, rest, rfl, readable⟩ := variableRest?_eq_some further
    exact ⟨valid, rest, rfl, readable⟩
  · simp at noMark
  · simp at noMark
  · cases found

/-! ## Quotation marks -/

theorem tidy_quoted (tidy : Tidy s) : Tidy ('"' :: (s ++ ['"'])) := by
  refine ⟨⟨'"', _, rfl, by decide⟩, ⟨'"' :: s, '"', by simp, by decide⟩, ?_⟩
  simp [tidy.oneLine]

theorem quoteIfNeeded_of {P : List Char → Prop} {text : String} (plain : P text.toList)
    (quoted : P ('"' :: (text.toList ++ ['"']))) : P (quoteIfNeeded text).toList := by
  unfold quoteIfNeeded
  split
  · simpa using quoted
  · exact plain

theorem stripQuotes_quoteIfNeeded {text : String} (noMark : '"' ∉ text.toList) :
    String.ofList (stripQuotes (quoteIfNeeded text).toList) = text := by
  refine quoteIfNeeded_of (P := fun s => String.ofList (stripQuotes s) = text) ?_ ?_
  · rw [stripQuotes_of_noMark noMark, String.ofList_toList]
  · rw [← cons_append, stripQuotes_quoted, String.ofList_toList]

/-! ## Comment signs -/

section Comments

variable {suffix rest : List Char}

/-- No comma of the text has a comment sign behind it. -/
def Uncommented (s : List Char) : Prop :=
  ∀ between rest, (∀ c ∈ between, isBlank c = true) → ¬(',' :: (between ++ '#' :: rest)) <:+ s

theorem uncommented_iff_tails :
    (∀ suffix ∈ s.tails, suffix.head? = some ',' → (trimStart suffix.tail).head? ≠ some '#') ↔
      Uncommented s := by
  constructor
  · intro none between rest blank isSuffix
    refine none _ ((List.mem_tails _ _).mpr isSuffix) rfl ?_
    rw [List.tail_cons, trimStart_append_of_blank blank, trimStart_cons_of_solid (by decide)]
    rfl
  · intro uncommented suffix member comma sign
    obtain ⟨behind, rfl⟩ := List.head?_eq_some_iff.mp comma
    obtain ⟨blanks, split, blank⟩ := exists_blanks behind
    obtain ⟨rest, shape⟩ := List.head?_eq_some_iff.mp sign
    rw [List.tail_cons] at shape
    rw [shape] at split
    refine uncommented blanks rest blank ?_
    rw [← split]
    exact (List.mem_tails _ _).mp member

instance (s : List Char) : Decidable (Uncommented s) :=
  decidable_of_iff _ uncommented_iff_tails

theorem suffix_quoted {body : List Char} {sign : Char} (first : (body ++ [sign]).head? ≠ some '"')
    (noMark : sign ≠ '"') (isSuffix : body ++ sign :: rest <:+ '"' :: (s ++ ['"'])) :
    ∃ start, body ++ sign :: start <:+ s := by
  rcases suffix_cons_iff.mp isSuffix with whole | inside
  · exact absurd (by simpa using congrArg head? whole) first
  · rcases suffix_concat_iff.mp inside with impossible | ⟨inner, text, isInner⟩
    · simp at impossible
    · rcases eq_nil_or_concat rest with rfl | ⟨start, last, rfl⟩
      · exact absurd (by simpa using (append_inj' text rfl).2) noMark
      · rw [concat_eq_append, ← cons_append, ← append_assoc] at text
        obtain ⟨rfl, _⟩ := append_inj' text rfl
        exact ⟨start, isInner⟩

theorem uncommented_quoted (uncommented : Uncommented s) : Uncommented ('"' :: (s ++ ['"'])) := by
  intro between rest blank isSuffix
  rw [← cons_append] at isSuffix
  obtain ⟨start, inner⟩ := suffix_quoted (by simp) (by decide) isSuffix
  exact uncommented between start blank inner

theorem commaEnding?_of_uncommented (uncommented : Uncommented s) (ends : EndsSolid s)
    (isSuffix : suffix <:+ s) (nonempty : suffix ≠ []) (rest : List Char) :
    commaEnding? (suffix ++ ',' :: rest) = none := by
  obtain ⟨blanks, c, tail, rfl, blank, solid⟩ := exists_solid (ends.of_suffix isSuffix nonempty)
  rw [append_assoc, commaEnding?_blanks blank, cons_append]
  by_cases comma : c = ','
  · subst comma
    rw [commaEnding?_comma]
    have behind : ',' :: tail <:+ s := (suffix_append blanks _).trans isSuffix
    cases tail with
    | nil => exact ending?_of_solid (by decide) (by decide) rest
    | cons d tail =>
      have inner : d :: tail <:+ s := (suffix_cons _ _).trans behind
      obtain ⟨between, e, more, text, betweenBlank, solidNext⟩ :=
        exists_solid (ends.of_suffix inner (cons_ne_nil d tail))
      rw [text, append_assoc, ending?_blanks betweenBlank, cons_append]
      refine ending?_of_solid solidNext ?_ _
      rintro rfl
      rw [text] at behind
      exact uncommented between more betweenBlank behind
  · exact commaEnding?_of_solid solid comma _

end Comments

/-! ## Targets -/

def targetText : Option (List Char) → List Char
  | none => []
  | some target => ' ' :: '-' :: '>' :: ' ' :: target

def PlainTarget (target : Option (List Char)) : Prop :=
  ∀ word ∈ target, word ≠ [] ∧ ∀ c ∈ word, isSolid c = true

/-- Targets as they stand in a line, apart from quoted ones that have no space. -/
inductive TargetText : List Char → Prop where
  | plain {word : List Char} (nonempty : word ≠ []) (solid : ∀ c ∈ word, isSolid c = true) : TargetText word
  | quoted {inner : List Char} (noMark : '"' ∉ inner) (oneLine : '\n' ∉ inner) (space : ' ' ∈ inner)
      (uncommented : Uncommented inner) : TargetText ('"' :: (inner ++ ['"']))

theorem PlainTarget.targetText (plain : PlainTarget target) : ∀ word ∈ target, TargetText word :=
  fun word among => .plain (plain word among).1 (plain word among).2

theorem TargetText.startsSolid {word : List Char} (valid : TargetText word) : StartsSolid word := by
  cases valid with
  | plain nonempty solid =>
    obtain ⟨c, rest, rfl⟩ := exists_cons_of_ne_nil nonempty
    exact ⟨c, rest, rfl, solid c mem_cons_self⟩
  | quoted => exact ⟨'"', _, rfl, by decide⟩

theorem TargetText.oneLine {word : List Char} (valid : TargetText word) : '\n' ∉ word := by
  cases valid with
  | plain _ solid => exact fun newline => absurd (solid '\n' newline) (by decide)
  | quoted _ oneLine => simpa using oneLine

section Endings

variable {comment : String} (valid : TrailingComment comment)
include valid

theorem commaEnding?_later {start suffix : List Char} (split : ',' :: comment.toList = start ++ suffix)
    (nonempty : start ≠ []) (solid : ∀ c ∈ start, isSolid c) : suffix = comment.toList := by
  obtain ⟨c, start, rfl⟩ := List.exists_cons_of_ne_nil nonempty
  obtain ⟨_, split⟩ := List.cons.inj split
  rcases valid with rfl | ⟨rest, text, _, _⟩
  · exact (List.append_eq_nil_iff.mp split.symm).2
  · cases start with
    | nil => exact split.symm
    | cons d start =>
      rw [text] at split
      obtain ⟨rfl, _⟩ := List.cons.inj split
      exact absurd (solid ' ' (by simp)) (by decide)

theorem targetEnding?_comment : targetEnding? comment.toList = none := by
  have noArrow : (afterBlanks? comment.toList).bind (after? "->") = none := by
    rcases valid with rfl | ⟨rest, text, _, _⟩
    · rfl
    · rw [text, afterBlanks?_space ⟨'#', rest, rfl, by decide⟩]
      rfl
  simp [targetEnding?, noArrow, commaEnding?_trailing valid]

theorem target?_append {word : List Char} (text : TargetText word) :
    target? commaEnding? (word ++ ',' :: comment.toList) = some (word, comment) := by
  have ending := commaEnding?_of_trailingComment valid
  cases text with
  | plain nonempty solid =>
    have found : longest? isSolid commaEnding? (word ++ ',' :: comment.toList) = some (word, comment) := by
      refine longest?_append solid ?_ ending
      intro start suffix split some others
      rw [commaEnding?_later valid split some others]
      exact commaEnding?_trailing valid
    simp only [target?, longestPart?_eq_some_iff.mpr ⟨nonempty, found⟩]
  | @quoted inner noMark oneLine space uncommented =>
    have quotation : quotation? (('"' :: (inner ++ ['"'])) ++ ',' :: comment.toList) =
        some ('"' :: (inner ++ ['"']), ',' :: comment.toList) :=
      quotation?_eq_some_iff.mpr ⟨inner, rfl, by simp, noMark⟩
    have long : 0 < inner.length := length_pos_of_mem space
    cases found : longestPart? isSolid commaEnding? (('"' :: (inner ++ ['"'])) ++ ',' :: comment.toList) with
    | none =>
      rw [target?, found, quotation]
      simp [Option.filter, long, ending]
    | some result =>
      obtain ⟨part, value⟩ := result
      obtain ⟨rest, split, solid, readable, _⟩ := longest?_eq_some (longestPart?_eq_some_iff.mp found).2
      have spaced : ' ' ∈ '"' :: (inner ++ ['"']) := by simp [space]
      rcases append_eq_append_iff.mp split with ⟨more, rfl, _⟩ | ⟨more, same, rfl⟩
      · exact absurd (solid ' ' (mem_append_left _ spaced)) (by decide)
      · have nonempty : more ≠ [] := by
          rintro rfl
          rw [append_nil] at same
          exact absurd (solid ' ' (same ▸ spaced)) (by decide)
        have unread := commaEnding?_of_uncommented (uncommented_quoted uncommented)
          ⟨'"' :: inner, '"', rfl, by decide⟩ ⟨part, same.symm⟩ nonempty comment.toList
        rw [unread] at readable
        cases readable

theorem targetEnding?_append (texts : ∀ word ∈ target, TargetText word) :
    targetEnding? (targetText target ++ ',' :: comment.toList) = some (target, comment) := by
  cases target with
  | none =>
    have noArrow : afterBlanks? (',' :: comment.toList) = none :=
      afterBlanks?_of_startsSolid ⟨',', comment.toList, rfl, by decide⟩
    simp [targetEnding?, targetText, noArrow, commaEnding?_of_trailingComment valid]
  | some word =>
    have text : TargetText word := texts word rfl
    have arrow : ∀ t, afterBlanks? (' ' :: '-' :: '>' :: t) = some ("->".toList ++ t) :=
      fun t => afterBlanks?_space ⟨'-', '>' :: t, rfl, by decide⟩
    simp only [targetEnding?, targetText, List.cons_append, arrow, bind_some, after?_append,
      trimStart_space, trimStart_of_startsSolid (text.startsSolid.append _), target?_append valid text]

theorem targetEnding?_later {start suffix : List Char}
    (split : targetText target ++ ',' :: comment.toList = start ++ suffix) (nonempty : start ≠ [])
    (solid : ∀ c ∈ start, isSolid c) : targetEnding? suffix = none := by
  cases target with
  | none =>
    rw [commaEnding?_later valid split nonempty solid]
    exact targetEnding?_comment valid
  | some word =>
    obtain ⟨c, start, rfl⟩ := List.exists_cons_of_ne_nil nonempty
    obtain ⟨rfl, _⟩ := List.cons.inj split
    exact absurd (solid ' ' (by simp)) (by decide)

end Endings

def pointed? (s : List Char) : Option (List Char × String) :=
  ((afterBlanks? s).bind (after? "->")).bind fun s => target? commaEnding? (trimStart s)

theorem targetEnding?_eq (s : List Char) :
    targetEnding? s = ((pointed? s).map fun (target, comment) => (some target, comment)).or
      ((commaEnding? s).map fun comment => (none, comment)) := by
  unfold targetEnding? pointed?
  split <;> simp [*]

theorem pointed?_eq_some {word : List Char} {comment : String} (found : pointed? s = some (word, comment)) :
    ∃ u v, afterBlanks? s = some u ∧ after? "->" u = some v ∧ trimStart v ≠ [] ∧ trimStart v <:+ s ∧
      target? commaEnding? (trimStart v) = some (word, comment) := by
  obtain ⟨v, arrow, further⟩ := bind_eq_some_iff.mp found
  obtain ⟨u, blanks, sign⟩ := bind_eq_some_iff.mp arrow
  refine ⟨u, v, blanks, sign, ?_,
    (List.dropWhile_suffix _).trans ((suffix_of_after? sign).trans (afterBlanks?_suffix blanks)), further⟩
  intro empty
  rw [empty] at further
  cases further

theorem target?_eq_some {word : List Char} {comment : String}
    (found : target? commaEnding? s = some (word, comment)) :
    ',' ∈ s ∧ TrailingComment comment ∧ ('"' ∉ s → word ≠ [] ∧ (∀ c ∈ word, isSolid c) ∧ word ⊆ s) := by
  unfold target? at found
  split at found
  next plain =>
    cases found
    obtain ⟨nonempty, longest⟩ := longestPart?_eq_some_iff.mp plain
    obtain ⟨rest, rfl, solid, ending, _⟩ := longest?_eq_some longest
    exact ⟨mem_append_right _ (comma_of_commaEnding? ending), trailingComment_of_commaEnding? ending,
      fun _ => ⟨nonempty, solid, subset_append_left _ _⟩⟩
  · obtain ⟨⟨quotation, rest⟩, quoted, ends⟩ := bind_eq_some_iff.mp found
    obtain ⟨_, ending, ⟨⟩⟩ := map_eq_some_iff.mp ends
    obtain ⟨inner, _, rfl, _⟩ := quotation?_eq_some_iff.mp (filter_eq_some_iff.mp quoted).1
    exact ⟨mem_append_right _ (mem_cons_of_mem _ (comma_of_commaEnding? ending)),
      trailingComment_of_commaEnding? ending, fun noMark => absurd (by simp) noMark⟩

theorem targetEnding?_eq_some {comment : String} (found : targetEnding? s = some (target, comment)) :
    TrailingComment comment ∧ ('"' ∉ s → PlainTarget target ∧ ∀ word ∈ target, word ⊆ s) := by
  rw [targetEnding?_eq] at found
  rcases or_eq_some_iff.mp found with arrow | ⟨_, ending⟩
  · obtain ⟨⟨word, _⟩, further, ⟨⟩⟩ := map_eq_some_iff.mp arrow
    obtain ⟨u, v, _, _, _, within, pointed⟩ := pointed?_eq_some further
    obtain ⟨_, valid, plain⟩ := target?_eq_some pointed
    refine ⟨valid, fun noMark => ?_⟩
    obtain ⟨nonempty, solid, inside⟩ := plain fun mark => noMark (within.subset mark)
    constructor
    · rintro _ ⟨⟩
      exact ⟨nonempty, solid⟩
    · rintro _ ⟨⟩
      exact Subset.trans inside within.subset
  · obtain ⟨ending, isEnd, ⟨⟩⟩ := map_eq_some_iff.mp ending
    exact ⟨trailingComment_of_commaEnding? isEnd, fun _ => ⟨by rintro _ ⟨⟩, by rintro _ ⟨⟩⟩⟩

/-! ## What can be written -/

section Writable

variable {text : String}

/-- A path starts with a slash or a variable. -/
def Rooted : List Char → Prop
  | '/' :: _ => True
  | '@' :: '{' :: first :: rest => isSolid first = true ∧ '}' ∈ rest.takeWhile isSolid
  | _ => False

instance (s : List Char) : Decidable (Rooted s) := by
  unfold Rooted
  split <;> infer_instance

/-- Without a space the path is written without quotation marks, so it has no other blank. -/
def WritablePath (path : List Char) : Prop :=
  Rooted path ∧ '"' ∉ path ∧ '\n' ∉ path ∧ (' ' ∈ path ∨ ∀ c ∈ path, isSolid c = true)

def WritableTarget (word : List Char) : Prop :=
  word ≠ [] ∧ '"' ∉ word ∧ '\n' ∉ word ∧
    (' ' ∈ word ∧ Uncommented word ∨ ∀ c ∈ word, isSolid c = true)

instance (path : List Char) : Decidable (WritablePath path) :=
  inferInstanceAs (Decidable (_ ∧ _))

instance (word : List Char) : Decidable (WritableTarget word) :=
  inferInstanceAs (Decidable (_ ∧ _))

theorem exists_name {rest : List Char} (brace : '}' ∈ rest.takeWhile isSolid) :
    ∃ name part, rest = name ++ '}' :: part ∧ '}' ∉ name ∧ ∀ c ∈ name, isSolid c := by
  obtain ⟨name, part, split, noBrace⟩ := eq_append_cons_of_mem brace
  refine ⟨name, part ++ rest.dropWhile isSolid, ?_, noBrace, fun c member => ?_⟩
  · rw [← cons_append, ← append_assoc, ← split, takeWhile_append_dropWhile]
  · exact all_eq_true.mp all_takeWhile c (split ▸ mem_append_left _ member)

theorem WritablePath.pathText (writable : WritablePath text.toList) :
    PathText (quoteIfNeeded text).toList := by
  obtain ⟨rooted, noMark, _, blanks⟩ := writable
  by_cases space : ' ' ∈ text.toList
  · rw [toList_quoteIfNeeded_of_space space]
    generalize text.toList = path at rooted noMark space
    unfold Rooted at rooted
    split at rooted
    · exact .quoted fun mark => noMark (mem_cons_of_mem _ mark)
    next first rest =>
      obtain ⟨name, inner, rfl, _, nameSolid⟩ := exists_name rooted.2
      simp only [cons_append, append_assoc]
      refine .quotedVariable rooted.1 nameSolid (fun mark => noMark ?_) ?_
      · simp only [mem_cons, mem_append] at mark ⊢
        exact .inr (.inr (.inr mark))
      · simp only [mem_cons, mem_append] at space
        rcases space with sign | sign | rfl | inName | sign | inside
        · cases sign
        · cases sign
        · exact absurd rooted.1 (by decide)
        · exact absurd (nameSolid ' ' inName) (by decide)
        · cases sign
        · exact inside
    · exact rooted.elim
  · have solid := blanks.resolve_left space
    rw [quoteIfNeeded_of_solid solid]
    generalize text.toList = path at rooted solid
    unfold Rooted at rooted
    split at rooted
    · exact .plain fun c member => solid c (mem_cons_of_mem _ member)
    next first rest =>
      obtain ⟨name, part, rfl, noBrace, nameSolid⟩ := exists_name rooted.2
      exact .braced rooted.1 nameSolid noBrace fun c member => solid c (by simp [member])
    · exact rooted.elim

theorem PathText.writable (valid : PathText path) (noMark : '"' ∉ path) : WritablePath path := by
  have solid := valid.solid noMark
  refine ⟨?_, noMark, fun newline => absurd (solid '\n' newline) (by decide), .inr solid⟩
  cases valid with
  | plain => trivial
  | @braced first name part firstSolid =>
    refine ⟨firstSolid, ?_⟩
    have whole : (name ++ '}' :: part ++ []).takeWhile isSolid = _ := takeWhile_append_of_pos fun c member =>
      solid c (mem_cons_of_mem _ (mem_cons_of_mem _ (mem_cons_of_mem _ member)))
    rw [append_nil] at whole
    simp [whole]
  | quoted | quotedVariable => simp at noMark

theorem WritableTarget.targetText (writable : WritableTarget text.toList) :
    TargetText (quoteIfNeeded text).toList := by
  obtain ⟨nonempty, noMark, oneLine, blanks⟩ := writable
  by_cases space : ' ' ∈ text.toList
  · rw [toList_quoteIfNeeded_of_space space]
    refine .quoted noMark oneLine space ?_
    rcases blanks with ⟨_, uncommented⟩ | solid
    · exact uncommented
    · exact absurd (solid ' ' space) (by decide)
  · have solid : ∀ c ∈ text.toList, isSolid c := blanks.resolve_left fun both => space both.1
    rw [quoteIfNeeded_of_solid solid]
    exact .plain nonempty solid

end Writable

end ArmorPolicy.Line
