import ArmorPolicy.Proofs.Line.Quotation
import ArmorPolicy.Proofs.Rule.ChangeProfile
import ArmorPolicy.Proofs.Rule.File
import ArmorPolicy.Proofs.Rule.Variable

/-!
# Canonical lines of file rules

A file rule has no word of its own.  Where its line starts with the path, it could open a profile or
assign to a variable; whether it does depends on the path alone.  A canonical line without quotation
marks is a file rule because the line was from which the rule was read.
-/

namespace ArmorPolicy

open List Option Text Line LineForm FileAccess

variable {c sign : Char} {access : FileAccess} {behind letters path rest s : List Char}
  {comment : String}

/-! ## Headers -/

namespace LineForm

theorem header?_isSome_of_braceComment {start : List Char} (solid : ∀ c ∈ start, isSolid c)
    (oneLine : '\n' ∉ rest) : (header? ('/' :: (start ++ '{' :: '#' :: rest))).isSome := by
  rw [header?_slash, isSome_map]
  exact shortest?_isSome solid (details?_brace oneLine)

theorem header?_path_eq_none (solid : ∀ c ∈ path, isSolid c) (noComment : ¬['{', '#'] <:+: path)
    (noDetails : details? (' ' :: rest) = none) (noEnding : ending? (' ' :: rest) = none) :
    header? ('/' :: (path ++ ' ' :: rest)) = none := by
  rw [header?_slash, map_eq_none_iff]
  refine shortest?_eq_none (by decide) fun suffix within => ?_
  by_cases nonempty : suffix = []
  · rwa [nonempty]
  · exact details?_suffix_eq_none solid noComment noEnding within nonempty

theorem header?_mark_eq_none (plain : plainHeader? ('"' :: s) = none) : header? ('"' :: s) = none := by
  have first : trimStart ('"' :: s) = '"' :: s := trimStart_cons_of_solid (by decide) _
  have noWord : ¬"profile".toList <+: '"' :: s := notStarts_of_head (by decide)
  simp [header?, first, plain, wordedHeader?, afterWord?_eq_none noWord]

theorem header?_of_statement {line : List Char} (form : ofLine line = .statement) : header? line = none := by
  unfold ofLine at form
  split at form
  · cases form
  next none => exact none

end LineForm

namespace File

variable {entry : Entry} {parts : Parts}

/-! ## What is read -/

/-- What is known of an entry that was read. -/
structure Entry.ReadFrom (entry : Entry) (comment : String) (s : List Char) : Prop where
  comment : TrailingComment comment
  path : '"' ∉ s → PathText entry.path ∧ '"' ∉ entry.path
  target : '"' ∉ s → PlainTarget entry.target ∧ ∀ word ∈ entry.target, '"' ∉ word
  starts : '"' ∉ s → entry.fileWord = false → entry.permissionsFirst = false →
    ∃ c rest, isBlank c = true ∧ s = entry.path ++ c :: rest

theorem Entry.ReadFrom.of_suffix {t : List Char} (read : entry.ReadFrom comment t)
    (suffix : t <:+ s) (word : entry.fileWord) : entry.ReadFrom comment s where
  comment := read.comment
  path noMark := read.path fun mark => noMark (suffix.subset mark)
  target noMark := read.target fun mark => noMark (suffix.subset mark)
  starts _ noWord := absurd word (by simp [noWord])

theorem suffix_of_lettersAt? (found : lettersAt? s = some (letters, rest)) : rest <:+ s := by
  unfold lettersAt? at found
  split at found
  · cases found
  · cases found
    exact dropWhile_suffix _

theorem readFrom_of_pathFirst? {target : Option (List Char)}
    (found : pathFirst? s = some ((path, letters, target), comment)) (fileWord : Bool) :
    Entry.ReadFrom ⟨fileWord, false, path, letters, target⟩ comment s := by
  obtain ⟨⟨path, letters, target, comment⟩, isPath, ⟨⟩⟩ := map_eq_some_iff.mp found
  have behind : ∀ {rest}, (((afterBlanks? rest).bind lettersAt?).bind fun found =>
      (targetEnding? found.2).map fun ending => (found.1, ending.1, ending.2)) =
        some (letters, target, comment) →
      TrailingComment comment ∧ ('"' ∉ rest → PlainTarget target ∧ ∀ word ∈ target, '"' ∉ word) ∧
        ∃ c others, isBlank c ∧ rest = c :: others := by
    intro rest permissions
    obtain ⟨⟨found, t⟩, lettered, ending⟩ := bind_eq_some_iff.mp permissions
    obtain ⟨⟨target, comment⟩, isEnd, ⟨⟩⟩ := map_eq_some_iff.mp ending
    obtain ⟨u, blanks, lettered⟩ := bind_eq_some_iff.mp lettered
    have inner : t <:+ rest := (suffix_of_lettersAt? lettered).trans (afterBlanks?_suffix blanks)
    obtain ⟨trailing, plain⟩ := targetEnding?_eq_some isEnd
    obtain ⟨c, others, rfl, blank⟩ := exists_blank_of_afterBlanks? blanks
    refine ⟨trailing, fun noMark => ?_, c, others, blank, rfl⟩
    have noMarkBehind : '"' ∉ t := fun mark => noMark (inner.subset mark)
    exact ⟨(plain noMarkBehind).1, fun word among mark => noMarkBehind ((plain noMarkBehind).2 word among mark)⟩
  obtain ⟨_, permissions⟩ := exists_read_of_path? isPath
  refine ⟨(behind permissions).1, fun noMark => ?_, fun noMark => ?_, fun noMark _ _ => ?_⟩ <;>
    obtain ⟨valid, rest, rfl, permissions⟩ := path?_eq_some isPath noMark <;>
    rw [mem_append, not_or] at noMark
  · exact ⟨valid, noMark.1⟩
  · exact (behind permissions).2.1 noMark.2
  · obtain ⟨c, others, blank, rfl⟩ := (behind permissions).2.2
    exact ⟨c, others, blank, rfl⟩

theorem readFrom_of_permissionsFirst? {target : Option (List Char)}
    (found : permissionsFirst? s = some ((path, letters, target), comment)) (fileWord : Bool) :
    Entry.ReadFrom ⟨fileWord, true, path, letters, target⟩ comment s := by
  obtain ⟨⟨_, t⟩, lettered, found⟩ := bind_eq_some_iff.mp found
  obtain ⟨⟨path, target, comment⟩, isPath, ⟨⟩⟩ := map_eq_some_iff.mp found
  obtain ⟨u, blanks, isPath⟩ := bind_eq_some_iff.mp isPath
  have within : u <:+ s := (afterBlanks?_suffix blanks).trans (suffix_of_lettersAt? lettered)
  obtain ⟨_, ending⟩ := exists_read_of_path? isPath
  refine ⟨(targetEnding?_eq_some ending).1, fun noMark => ?_, fun noMark => ?_, fun _ _ => by rintro ⟨⟩⟩ <;>
    have noMarkHere : '"' ∉ u := (fun mark => noMark (within.subset mark)) <;>
    obtain ⟨valid, rest, rfl, ending⟩ := path?_eq_some isPath noMarkHere <;>
    rw [mem_append, not_or] at noMarkHere
  · exact ⟨valid, noMarkHere.1⟩
  · obtain ⟨plain, inTarget⟩ := (targetEnding?_eq_some ending).2 noMarkHere.2
    exact ⟨plain, fun word among mark => noMarkHere.2 (inTarget word among mark)⟩

theorem readFrom_of_pathWithAccess? (found : pathWithAccess? s = some (entry, comment)) :
    entry.ReadFrom comment s := by
  obtain ⟨⟨fileWord, t⟩, member, found⟩ := exists_of_findSome?_eq_some found
  obtain ⟨suffix, whole⟩ := mem_optionalWord member
  have read : entry.ReadFrom comment t ∧ entry.fileWord = fileWord := by
    obtain ⟨_, _, _, ⟨cut, rfl⟩ | ⟨cut, rfl⟩⟩ := eitherOrder?_cases found
    · exact ⟨readFrom_of_pathFirst? cut fileWord, rfl⟩
    · exact ⟨readFrom_of_permissionsFirst? cut fileWord, rfl⟩
  obtain ⟨read, rfl⟩ := read
  cases word : entry.fileWord with
  | true => exact read.of_suffix suffix word
  | false =>
    rw [whole word] at read
    exact read

theorem readFrom_of_readParts? (found : readParts? s = some (parts, comment)) :
    TrailingComment comment ∧ ∀ entry ∈ parts.entry, ∃ t, t <:+ s ∧ entry.ReadFrom comment t ∧
      (parts.owner = false → t = s) := by
  obtain ⟨owner, t, member, ⟨_, _, ends, rfl⟩ | ⟨entry, _, cut, rfl⟩⟩ := readParts?_cases found
  · refine ⟨trailingComment_of_commaEnding? ends, ?_⟩
    rintro _ ⟨⟩
  · obtain ⟨suffix, whole⟩ := mem_optionalWord member
    have read := readFrom_of_pathWithAccess? cut
    refine ⟨read.comment, ?_⟩
    rintro _ ⟨⟩
    exact ⟨t, suffix, read, whole⟩

/-! ## What is written -/

/-- What is written for the path and the target is read as them. -/
def Legible (file : File) : Prop := file.path.WritablePath ∧ file.target.WritableTarget

instance (file : File) : Decidable file.Legible :=
  inferInstanceAs (Decidable (_ ∧ _))

/-- The entry as it is written, with the permission string in its fixed order. -/
def Entry.restated (entry : Entry) (pattern : Pattern) (access : FileAccess) (target : Extent Pattern) : Entry :=
  { entry with path := (quoteIfNeeded pattern.glob).toList, letters := access.text, target := target.written }

theorem targetOf_eq (target : Option (List Char)) :
    targetOf target = ChangeProfile.patternOf false target := by
  cases target <;> rfl

theorem text_toList (entry : Entry) (pattern : Pattern) (access : FileAccess) (target : Extent Pattern)
    (owner : Bool) :
    (File.text { path := .only pattern, permissions := .only access.permissions, exec := access.exec
                 target, owner, fileWord := entry.fileWord
                 permissionsFirst := entry.permissionsFirst }).toList =
      Parts.text ⟨owner, some (entry.restated pattern access target)⟩ := by
  obtain ⟨fileWord, permissionsFirst, pathChars, letters, targetChars⟩ := entry
  have behind := target.text_written " -> "
  rw [← targetText_eq] at behind
  cases owner <;> cases fileWord <;> cases permissionsFirst <;>
    simp [File.text, accessText, Extent.value?, behind, Parts.text, Parts.ownText, Entry.text,
      Entry.ownText, Entry.restated, FileAccess.text]

def Parts.StartsWithPath (parts : Parts) : Prop :=
  parts.owner = false ∧ ∃ entry ∈ parts.entry, entry.fileWord = false ∧ entry.permissionsFirst = false

theorem Parts.text_of_path (noWord : entry.fileWord = false) (order : entry.permissionsFirst = false) :
    Parts.text ⟨false, some entry⟩ = entry.path ++ ' ' :: (entry.letters ++ targetText entry.target) := by
  simp [text, ownText, Entry.text, Entry.ownText, noWord, order]

theorem Entry.Readable.exists_letter (readable : entry.Readable) (rest : List Char) :
    ∃ c others, entry.letters ++ rest = c :: others ∧ c ∈ alphabet := by
  obtain ⟨access, letters⟩ := readable.access
  obtain ⟨c, others, text⟩ := exists_cons_of_ne_nil readable.nonempty
  have member : c ∈ access.text := by
    rw [letters, text]
    exact mem_cons_self
  exact ⟨c, others ++ rest, by rw [text]; rfl, mem_alphabet_of_mem_text member⟩

theorem Entry.Readable.head?_ownText (readable : entry.Readable)
    (order : entry.permissionsFirst) (rest : List Char) (among : sign ∈ ['/', '@', '"']) :
    ¬[sign] <+: entry.ownText ++ rest := by
  have other : ∀ sign ∈ ['/', '@', '"'], sign ∉ alphabet := by decide
  obtain ⟨c, others, text, letter⟩ :=
    readable.exists_letter (' ' :: entry.path ++ targetText entry.target ++ rest)
  have start : entry.ownText ++ rest = c :: others := by
    rw [← text]
    simp [ownText, order]
  rw [start]
  refine notStarts_of_head ⟨sign, rfl, ?_⟩
  rintro rfl
  exact other sign among letter

theorem Parts.Readable.head?_text (readable : parts.Readable) (other : ¬parts.StartsWithPath)
    (rest : List Char) (among : sign ∈ ['/', '@', '"']) : ¬[sign] <+: parts.text ++ rest := by
  have letters : ∀ sign ∈ ['/', '@', '"'], sign ≠ 'o' ∧ sign ≠ 'f' := by decide
  obtain ⟨noOwner, noFile⟩ := letters sign among
  obtain ⟨owner, entry⟩ := parts
  cases owner with
  | true => exact notStarts_of_head ⟨sign, rfl, noOwner⟩
  | false =>
    cases entry with
    | none => exact notStarts_of_head ⟨sign, rfl, noFile⟩
    | some entry =>
      have readableEntry : entry.Readable := readable entry rfl
      change ¬[sign] <+: entry.text ++ rest
      unfold Entry.text
      cases word : entry.fileWord with
      | true => exact notStarts_of_head ⟨sign, rfl, noFile⟩
      | false =>
        cases order : entry.permissionsFirst with
        | true => exact readableEntry.head?_ownText order rest among
        | false => exact absurd ⟨rfl, entry, rfl, word, order⟩ other

/-! ## Assignments -/

theorem assignment_eq_none {line : List Char} (starts : StartsSolid line)
    (absent : ¬['@'] <+: line) : Rule.readAs? .assignment line = none := by
  have unread : after? "@\x7b" line = none := by
    refine after?_eq_none ?_
    rintro ⟨rest, rfl⟩
    exact absent ⟨'{' :: rest, rfl⟩
  have unfit : Assignment.read? line = none := by
    simp [Assignment.read?, withoutModifiers, trimStart_of_startsSolid starts, Assignment.name?, unread]
  rw [Rule.readAs?]
  exact Rule.readBy_eq_none unfit

theorem eq_of_split {stop : Char} {t first second : List Char} (absent : stop ∉ s)
    (other : stop ∉ t) (same : s ++ stop :: first = t ++ stop :: second) : s = t ∧ first = second := by
  have cut := upTo?_append absent first
  rw [same, upTo?_append other] at cut
  cases cut
  exact ⟨rfl, rfl⟩

theorem exists_behind_sign {part blanks more : List Char} {mode : AssignMode}
    (solid : ∀ d ∈ part, isSolid d) (blank : ∀ d ∈ blanks, isBlank d)
    (notSign : c ≠ '=' ∧ c ≠ '+') (letter : isSolid c)
    (split : part ++ ' ' :: c :: rest = blanks ++ (mode.sign.toList ++ more)) :
    ∃ inner, part = mode.sign.toList ++ inner := by
  have solidSign : ∀ d ∈ mode.sign.toList, isSolid d := by cases mode <;> decide
  have start := congrArg trimStart split
  rw [trimStart_append_of_blank blank, trimStart_of_startsSolid (Assignment.startsSolid_sign mode more)]
    at start
  cases part with
  | nil =>
    rw [nil_append, trimStart_space, trimStart_cons_of_solid letter] at start
    cases mode with
    | define => exact absurd (cons.inj start).1 notSign.1
    | append => exact absurd (cons.inj start).1 notSign.2
  | cons d part =>
    rw [cons_append, trimStart_cons_of_solid (solid d mem_cons_self), ← cons_append] at start
    obtain ⟨inner, _, whole⟩ := exists_before_stop (by decide) start solidSign
    exact ⟨inner, whole⟩

/-- The path is the name of a variable and a sign that assigns to it, and possibly more. -/
def Assigns (path : List Char) : Prop :=
  ∃ name mode inner, Assignment.IsName name ∧ path = name ++ ((AssignMode.sign mode).toList ++ inner)

theorem assigns_of_read? (valid : PathText path) (notSign : c ≠ '=' ∧ c ≠ '+') (letter : isSolid c)
    (oneLine : '\n' ∉ path ++ ' ' :: c :: rest)
    (fits : (Assignment.read? (path ++ ' ' :: c :: rest)).isSome) : Assigns path := by
  obtain ⟨name, blanks, mode, more, isName, blank, _, split⟩ :=
    (Assignment.read?_isSome_iff (valid.startsSolid.append _) oneLine).mp fits
  have named := isName
  obtain ⟨word, rfl, nonemptyWord, wordChars⟩ := isName
  have noBrace : '}' ∉ word := fun brace => absurd (wordChars '}' brace) (by decide)
  cases valid with
  | plain _ | quoted _ | quotedVariable _ _ _ _ => exact absurd (cons.inj split).1 (by decide)
  | @braced first inner part firstSolid nameSolid noInner partSolid =>
    simp only [cons_append, append_assoc, nil_append, cons.injEq, true_and] at split
    have noFirst : '}' ∉ first :: inner := by
      rw [mem_cons, not_or]
      refine ⟨?_, noInner⟩
      rintro rfl
      obtain ⟨d, word, rfl⟩ := exists_cons_of_ne_nil nonemptyWord
      obtain ⟨rfl, _⟩ := cons.inj split
      exact noBrace mem_cons_self
    obtain ⟨rfl, tail⟩ := eq_of_split noFirst noBrace split
    obtain ⟨behindSign, rfl⟩ := exists_behind_sign partSolid blank notSign letter tail
    exact ⟨_, mode, behindSign, named, by simp⟩

theorem not_assigns_of_line (valid : PathText path) (nonempty : behind ≠ []) (oneLine : '\n' ∉ path ++ behind)
    (unassigned : Rule.readAs? .assignment (path ++ behind) = none) : ¬Assigns path := by
  rintro ⟨name, mode, inner, isName, rfl⟩
  have unfit : Assignment.read? ((name ++ ((AssignMode.sign mode).toList ++ inner)) ++ behind) = none := by
    simpa [Rule.readAs?, Rule.readBy] using unassigned
  have fits := (Assignment.read?_isSome_iff (valid.startsSolid.append _) oneLine).mpr
    ⟨name, [], mode, inner ++ behind, isName, by simp, by simp [nonempty], by simp⟩
  rw [unfit] at fits
  cases fits

/-! ## Lines -/

namespace Entry.Readable

variable (readable : entry.Readable)
include readable

theorem notStarts_letters {word : List Char} (member : c ∈ word) (foreign : c ∉ FileAccess.alphabet)
    (noStop : ' ' ∉ word ∧ ',' ∉ word) (rest : List Char) :
    ¬word <+: entry.letters ++ (targetText entry.target ++ ',' :: rest) := by
  obtain ⟨access, letters⟩ := readable.access
  have apart : ∀ stop, stop ∉ word → c ∉ stop :: FileAccess.alphabet := by
    intro stop noStop
    rw [mem_cons, not_or]
    refine ⟨?_, foreign⟩
    rintro rfl
    exact noStop member
  rw [← letters]
  cases entry.target with
  | none => exact FileAccess.notStarts_text member (apart ',' noStop.2) noStop.2 rest
  | some target => exact FileAccess.notStarts_text member (apart ' ' noStop.1) noStop.1 _

theorem details?_letters (rest : List Char) :
    details? (' ' :: (entry.letters ++ (targetText entry.target ++ ',' :: rest))) = none := by
  have noXattrs : ¬"xattrs=".toList <+: entry.letters ++ (targetText entry.target ++ ',' :: rest) :=
    readable.notStarts_letters (c := 't') (by decide) (by decide) (by decide) rest
  obtain ⟨c, others, text, letter⟩ := readable.exists_letter (targetText entry.target ++ ',' :: rest)
  rw [text] at noXattrs ⊢
  have apart : ∀ c ∈ alphabet, isSolid c ∧ c ≠ '"' ∧ c ≠ '/' ∧ c ≠ '@' ∧ c ≠ 'f' ∧
      c ≠ '(' ∧ c ≠ '{' := by decide
  obtain ⟨solid, noMark, noSlash, noSign, noFlag, noParenthesis, noBrace⟩ := apart c letter
  have starts : StartsSolid (c :: others) := ⟨c, others, rfl, solid⟩
  have unread : ∀ {α : Type} {read : List Char → Option (α × List Char)}, read (c :: others) = none →
      optionalPart read (' ' :: c :: others) = (none, ' ' :: c :: others) := by
    intro α read none
    simp [optionalPart, afterBlanks?_space starts, none]
  have attachment : attachment? (c :: others) = none := by
    simp [attachment?, startsPath, noMark, noSlash, noSign]
  have xattrs : parenthesized? "xattrs=" (c :: others) = none := by
    simp [parenthesized?, after?_eq_none noXattrs]
  have flags : flags? (c :: others) = none := by
    have noWord : after? "flags=" (c :: others) = none :=
      after?_eq_none (notStarts_of_head ⟨'f', rfl, noFlag.symm⟩)
    have noOpen : after? "(" (c :: others) = none :=
      after?_eq_none (notStarts_of_head ⟨'(', rfl, noParenthesis.symm⟩)
    have whole : after? "" (c :: others) = some (c :: others) := rfl
    simp [flags?, parenthesized?, noWord, whole, noOpen]
  have ending : braceEnding? (' ' :: c :: others) = none := by
    simp [braceEnding?, trimStart_space, trimStart_of_startsSolid starts, noBrace]
  simp [details?, unread attachment, unread xattrs, unread flags, ending]

theorem ending?_letters (rest : List Char) : ending? (' ' :: (entry.letters ++ rest)) = none := by
  obtain ⟨c, others, text, letter⟩ := readable.exists_letter rest
  have apart : ∀ c ∈ alphabet, isSolid c ∧ c ≠ '#' := by decide
  obtain ⟨solid, noSign⟩ := apart c letter
  rw [text, ← singleton_append, ending?_blanks (by decide)]
  exact ending?_of_solid solid noSign others

end Entry.Readable

theorem Parts.Readable.unassigned (readable : parts.Readable) (first : parts.StartsWithPath)
    (unassigned : ∀ entry ∈ parts.entry, ¬Assigns entry.path) (oneLine : '\n' ∉ parts.text ++ ',' :: rest) :
    Rule.readAs? .assignment (parts.text ++ ',' :: rest) = none := by
  obtain ⟨owner, _⟩ := parts
  obtain ⟨rfl, entry, rfl, noWord, order⟩ := first
  have apart : ∀ c ∈ alphabet, isSolid c ∧ c ≠ '=' ∧ c ≠ '+' := by decide
  obtain ⟨c, others, text, letter⟩ :=
    (readable entry rfl).exists_letter (targetText entry.target ++ ',' :: rest)
  have shown : Parts.text ⟨false, some entry⟩ ++ ',' :: rest = entry.path ++ ' ' :: c :: others := by
    simp [text_of_path noWord order, ← text]
  rw [shown] at oneLine ⊢
  rw [Rule.readAs?]
  refine Rule.readBy_eq_none ?_
  by_contra fits
  exact unassigned entry rfl (assigns_of_read? (readable entry rfl).path (apart c letter).2 (apart c letter).1
    oneLine (isSome_iff_ne_none.mpr fits))

/-- The path can be read as a name, an opening brace and a comment. -/
def Opens (path : List Char) : Prop := path.head? = some '/' ∧ ['{', '#'] <:+: path

theorem not_opens_of_line (solid : ∀ c ∈ path, isSolid c) (oneLine : '\n' ∉ path ++ behind)
    (form : ofLine (path ++ behind) = .statement) : ¬Opens path := by
  rintro ⟨slash, start, suffix, split⟩
  cases start with
  | nil =>
    rw [← split] at slash
    cases slash
  | cons c start =>
    subst split
    obtain rfl : c = '/' := Option.some.inj slash
    have text : '/' :: start ++ ['{', '#'] ++ suffix ++ behind =
        '/' :: (start ++ '{' :: '#' :: (suffix ++ behind)) := by simp
    rw [text] at form oneLine
    have found : (header? ('/' :: (start ++ '{' :: '#' :: (suffix ++ behind)))).isSome := by
      refine header?_isSome_of_braceComment (fun d member => solid d (by simp [member])) ?_
      exact fun newline => oneLine (mem_cons_of_mem _ (mem_append_right _
        (mem_cons_of_mem _ (mem_cons_of_mem _ newline))))
    rw [header?_of_statement form] at found
    cases found

theorem apart_of_line {line : List Char} (isPath : PathText path) (noMark : '"' ∉ path)
    (trimmed : trimStart line = path ++ c :: rest) (oneLine : '\n' ∉ line)
    (unassigned : Rule.readAs? .assignment line = none) :
    (Tidy line → ofLine line = .statement → ¬Opens path) ∧ ¬Assigns path := by
  have oneLineHere : '\n' ∉ path ++ c :: rest := by
    rw [← trimmed]
    exact fun newline => oneLine ((trimStart_sublist line).subset newline)
  rw [← Rule.readAs?_trimStart, trimmed] at unassigned
  refine ⟨fun tidy form => ?_, not_assigns_of_line isPath (cons_ne_nil c rest) oneLineHere unassigned⟩
  rw [← tidy.trimStart_eq, trimmed] at form
  exact not_opens_of_line (isPath.solid noMark) oneLineHere form

theorem header?_path {others : List Char} (isPath : PathText path) (unopened : ¬Opens path)
    (noDetails : details? (' ' :: others) = none) (noEnding : ending? (' ' :: others) = none) :
    header? (path ++ ' ' :: others) = none := by
  cases isPath with
  | plain solid =>
    refine header?_path_eq_none solid ?_ noDetails noEnding
    exact fun comment => unopened ⟨rfl, comment.trans (suffix_cons '/' _).isInfix⟩
  | braced _ _ _ _ =>
    exact header?_eq_none ⟨'@', _, rfl, by decide⟩ (notStarts_of_head ⟨'/', rfl, by decide⟩)
      (notStarts_of_head ⟨'"', rfl, by decide⟩) (notStarts_of_head ⟨'p', rfl, by decide⟩)
  | @quoted inner noMark =>
    have quotation : quotation? ('"' :: '/' :: (inner ++ '"' :: ' ' :: others)) =
        some ('"' :: '/' :: (inner ++ ['"']), ' ' :: others) :=
      quotation?_eq_some_iff.mpr ⟨'/' :: inner, rfl, by simp, by simpa using noMark⟩
    have plain : plainHeader? ('"' :: '/' :: (inner ++ '"' :: ' ' :: others)) = none := by
      simp [plainHeader?, quotation, noDetails]
    simpa using header?_mark_eq_none plain
  | quotedVariable _ _ _ _ => exact header?_mark_eq_none rfl

theorem Parts.Readable.unheaded (readable : parts.Readable) (first : parts.StartsWithPath)
    (unopened : ∀ entry ∈ parts.entry, ¬Opens entry.path) : header? (parts.text ++ ',' :: rest) = none := by
  obtain ⟨owner, _⟩ := parts
  obtain ⟨rfl, entry, rfl, noWord, order⟩ := first
  have readableEntry := readable entry rfl
  simpa [text_of_path noWord order] using header?_path readableEntry.path (unopened entry rfl)
    (readableEntry.details?_letters rest) (readableEntry.ending?_letters (targetText entry.target ++ ',' :: rest))

theorem Parts.Readable.head?_canonical (readable : parts.Readable) {base : RuleBase}
    (other : base.modifiers = "" → ¬parts.StartsWithPath) (rest : List Char)
    (among : sign ∈ ['/', '@', '"']) : ¬[sign] <+: base.modifiers.toList ++ (parts.text ++ rest) := by
  rcases modifiers_eq_or_prefix base (parts.text ++ rest) with none | ⟨word, modifier, modified⟩
  · rw [none]
    exact readable.head?_text (other none) rest among
  · have apart : ∀ sign ∈ ['/', '@', '"'], ∀ word ∈ modifierWords, Apart [sign] word.toList := by decide
    exact (apart sign among word modifier).notStarts modified

theorem Parts.Readable.notStarts_canonical (readable : parts.Readable) {base : RuleBase}
    {word : List Char} (distinct : Distinct word) (apart : Apart word "file".toList)
    (apartOwner : Apart word "owner".toList)
    (apartModifiers : ∀ modifier ∈ modifierWords, Apart word modifier.toList) (rest : List Char) :
    ¬word <+: base.modifiers.toList ++ (parts.text ++ rest) := by
  rcases modifiers_eq_or_prefix base (parts.text ++ rest) with none | ⟨first, modifier, modified⟩
  · rw [none]
    exact readable.notStarts_text distinct apart apartOwner rest
  · exact (apartModifiers first modifier).notStarts modified

theorem Parts.Readable.header?_canonical (readable : parts.Readable) {base : RuleBase}
    (unopened : base.modifiers = "" → parts.StartsWithPath → ∀ entry ∈ parts.entry, ¬Opens entry.path) :
    header? (base.modifiers.toList ++ (parts.text ++ ',' :: rest)) = none := by
  by_cases first : base.modifiers = "" ∧ parts.StartsWithPath
  · rw [first.1]
    exact readable.unheaded first.2 (unopened first.1 first.2)
  · have noSign : ∀ sign ∈ ['/', '@', '"'], ¬[sign] <+: base.modifiers.toList ++ (parts.text ++ ',' :: rest) :=
      fun _ => readable.head?_canonical (fun none path => first ⟨none, path⟩) _
    have noWord : ¬"profile".toList <+: base.modifiers.toList ++ (parts.text ++ ',' :: rest) :=
      readable.notStarts_canonical (by decide) (by decide) (by decide) (by decide) _
    exact header?_eq_none (startsSolid_modifiers _ (readable.startsSolid_text.append _))
      (noSign '/' (by decide)) (noSign '"' (by decide)) noWord

theorem Parts.Readable.assignment_canonical (readable : parts.Readable) {base : RuleBase}
    (unassigned : base.modifiers = "" → parts.StartsWithPath → ∀ entry ∈ parts.entry, ¬Assigns entry.path)
    (oneLine : '\n' ∉ parts.text ++ ',' :: rest) :
    Rule.readAs? .assignment (base.modifiers.toList ++ (parts.text ++ ',' :: rest)) = none := by
  by_cases first : base.modifiers = "" ∧ parts.StartsWithPath
  · rw [first.1]
    exact readable.unassigned first.2 (unassigned first.1 first.2) oneLine
  · refine assignment_eq_none (startsSolid_modifiers _ (readable.startsSolid_text.append _)) ?_
    exact readable.head?_canonical (fun none path => first ⟨none, path⟩) _ (by decide)

theorem oneLine_text {pattern : Pattern} {target : Extent Pattern} (path : '\n' ∉ pattern.glob.toList)
    (writable : target.WritableTarget) (owner : Bool) :
    '\n' ∉ Parts.text ⟨owner, some (entry.restated pattern access target)⟩ := by
  have letters : '\n' ∉ access.text := fun newline =>
    absurd (isSolid_of_mem_text newline) (by decide)
  have written : '\n' ∉ (quoteIfNeeded pattern.glob).toList :=
    quoteIfNeeded_of (P := fun s => '\n' ∉ s) path (by simpa using path)
  have behind := oneLine_targetText writable.targetText
  obtain ⟨fileWord, permissionsFirst, pathChars, _, targetChars⟩ := entry
  cases owner <;> cases fileWord <;> cases permissionsFirst <;>
    simp [Parts.text, Parts.ownText, Entry.text, Entry.ownText, Entry.restated, written, letters, behind]

/-- Written without quotation marks, the path can be taken neither for a header nor for an
assignment. -/
def Unmistaken (file : File) : Prop :=
  ∀ pattern ∈ file.path.value?,
    ' ' ∈ pattern.glob.toList ∨ ¬['{', '#'] <:+: pattern.glob.toList ∧ '=' ∉ pattern.glob.toList

instance (file : File) : Decidable file.Unmistaken :=
  inferInstanceAs (Decidable (∀ pattern ∈ file.path.value?, _))

theorem not_mistaken {text : String}
    (unmistaken : ' ' ∈ text.toList ∨ ¬['{', '#'] <:+: text.toList ∧ '=' ∉ text.toList)
    (blanks : ' ' ∈ text.toList ∨ ∀ c ∈ text.toList, isSolid c) :
    ¬Opens (quoteIfNeeded text).toList ∧ ¬Assigns (quoteIfNeeded text).toList := by
  by_cases space : ' ' ∈ text.toList
  · rw [toList_quoteIfNeeded_of_space space]
    constructor
    · rintro ⟨⟨⟩, _⟩
    · rintro ⟨_, mode, inner, ⟨word, rfl, _⟩, impossible⟩
      cases impossible
  · obtain ⟨noComment, noSign⟩ := unmistaken.resolve_left space
    rw [quoteIfNeeded_of_solid (blanks.resolve_left space)]
    refine ⟨fun opens => noComment opens.2, ?_⟩
    rintro ⟨name, mode, inner, _, whole⟩
    have sign : '=' ∈ (AssignMode.sign mode).toList := by cases mode <;> decide
    rw [whole] at noSign
    exact noSign (mem_append_right _ (mem_append_left _ sign))

end File

namespace Rule

variable {rule : Rule} {line : List Char} {parts : File.Parts}

/-- A canonical line of readable parts is a file rule, if one that starts with a path does not assign
to a variable. -/
theorem recovered_of_parts (kind : rule.kind = .file) (stated : rule.base.Stated)
    (comment : TrailingComment rule.base.comment) (readable : parts.Readable)
    (bodyText : rule.body.text.toList = parts.text) (oneLine : '\n' ∉ parts.text)
    (apart : rule.base.modifiers = "" → parts.StartsWithPath → ∀ entry ∈ parts.entry,
      (Tidy line → ofLine line = .statement → ¬File.Opens entry.path) ∧ ¬File.Assigns entry.path)
    (made : (File.ofParts rule.rewritten.base parts).map .file = .ok rule.body) : rule.Restored line := by
  have shows : rule.ShowsModifiers := by
    intro hidden
    rw [kind] at hidden
    cases hidden
  have comma : rule.kind.terminator = "," := by
    rw [kind]
    rfl
  have statement : rule.statementText = parts.text ++ ',' :: rule.base.comment.toList := by
    simp [statementText, bodyText, comma]
  have canonical : rule.canonical.toList =
      rule.base.modifiers.toList ++ (parts.text ++ ',' :: rule.base.comment.toList) := by
    rw [shows.canonical_eq, statement]
  have starts : StartsSolid (parts.text ++ ',' :: rule.base.comment.toList) :=
    readable.startsSolid_text.append _
  have written : rule.Written line :=
    ⟨shows, stated, comment, endsSolid_comma comma, fun _ => by rwa [bodyText]⟩
  have canonicalStarts := written.startsSolid_canonical (by rw [statement]; exact starts)
  refine ⟨canonicalStarts, written.endsSolid_canonical, written.oneLine_canonical, ?_, ?_⟩
  · intro tidy form
    rw [canonical]
    refine ofLine_eq_statement (startsSolid_modifiers _ starts) (readable.header?_canonical ?_) ?_
    · exact fun unmodified first entry among => (apart unmodified first entry among).1 tidy form
    · intro word block
      have all : ∀ word ∈ blockWords, File.Distinct word.toList ∧
          Apart word.toList "file".toList ∧ Apart word.toList "owner".toList ∧
          ∀ modifier ∈ modifierWords, Apart word.toList modifier.toList := by decide
      obtain ⟨distinct, apart, apartOwner, apartModifiers⟩ := all word block
      exact readable.notStarts_canonical distinct apart apartOwner apartModifiers _
  · have found : File.read? rule.canonical.toList =
        some ⟨rule.base.audit, rule.base.decision, rule.base.comment, parts⟩ := by
      rw [canonical]
      exact readable.read?_text rule.base comment
    have result : readAs? .file rule.canonical.toList = some (.ok rule.rewritten) := by
      rw [readAs?, readBy_canonical stated canonicalStarts written.endsSolid_canonical found, made]
      rfl
    rw [← String.ofList_toList (s := rule.canonical)]
    refine parse?_of_readAs? result ?_
    intro other differs _
    by_cases assignment : other = .assignment
    · rw [assignment, canonical]
      refine readable.assignment_canonical ?_ (by simp [oneLine, comment.oneLine])
      exact fun unmodified first entry among => (apart unmodified first entry among).2
    · rw [canonical]
      exact readable.readAs?_eq_none differs assignment rule.base _

theorem legible_of_file {file : File} (plain : '"' ∉ line) (success : readAs? .file line = some (.ok rule))
    (body : rule.body = .file file) : file.Legible := by
  simp only [readAs?, File.read?_eq] at success
  obtain ⟨s, ⟨owner, entry⟩, suffix, found, made, _⟩ := readBy_withModifiers_eq_ok success
  have within : s ⊆ line := fun _ member => (trimStart_sublist line).subset (suffix.subset member)
  obtain ⟨_, isFile, shape⟩ := Checked.map_eq_ok.mp made
  cases shape.trans body
  obtain ⟨_, entries⟩ := File.readFrom_of_readParts? found
  cases entry with
  | none =>
    cases isFile
    exact ⟨by rintro _ ⟨⟩, by rintro _ ⟨⟩⟩
  | some entry =>
    obtain ⟨t, inner, read, _⟩ := entries entry rfl
    obtain ⟨pattern, access, target, isPattern, _, isTarget, _, rfl⟩ := File.ofParts_entry_eq_ok_iff.mp isFile
    have noMark : '"' ∉ t := fun mark => plain (within (inner.subset mark))
    obtain ⟨path, noPathMark⟩ := read.path noMark
    obtain ⟨words, noWordMark⟩ := read.target noMark
    constructor
    · rintro _ ⟨⟩
      rw [Pattern.ofText_eq_ok isPattern, stripQuotes_of_noMark noPathMark, String.toList_ofList]
      exact path.writable noPathMark
    · rw [File.targetOf_eq] at isTarget
      exact ChangeProfile.writable_of_patternOf words noWordMark isTarget

theorem recovered_file {file : File} (oneLine : '\n' ∉ line) (unassigned : readAs? .assignment line = none)
    (success : readAs? .file line = some (.ok rule)) (body : rule.body = .file file) (legible : file.Legible)
    (unmistaken : '"' ∉ line ∨ file.Unmistaken) : rule.Restored line := by
  have kind := kind_of_readAs? success
  simp only [readAs?, File.read?_eq] at success
  obtain ⟨s, ⟨owner, entry⟩, suffix, found, made, stated, whole⟩ := readBy_withModifiers_eq_ok success
  have within : s ⊆ line := fun _ member => (trimStart_sublist line).subset (suffix.subset member)
  obtain ⟨comment, entries⟩ := File.readFrom_of_readParts? found
  obtain ⟨_, isFile, shape⟩ := Checked.map_eq_ok.mp made
  cases shape.trans body
  cases entry with
  | none =>
    cases isFile
    have readable : File.Parts.Readable ⟨owner, none⟩ := by rintro _ ⟨⟩
    refine recovered_of_parts kind stated comment readable ?_ ?_ ?_ (Checked.map_eq_ok.mpr ⟨_, rfl, shape⟩)
    · rw [← shape]
      cases owner <;> decide
    · cases owner <;> decide
    · rintro _ _ _ ⟨⟩
  | some entry =>
    obtain ⟨t, inner, read, wholeEntry⟩ := entries entry rfl
    obtain ⟨pattern, access, target, isPattern, isAccess, isTarget, sensible, rfl⟩ :=
      File.ofParts_entry_eq_ok_iff.mp isFile
    obtain ⟨writablePath, writableTarget⟩ := legible
    obtain ⟨_, noPathMark, pathLine, blanks⟩ := writablePath pattern rfl
    have isPath : PathText (quoteIfNeeded pattern.glob).toList := (writablePath pattern rfl).pathText
    have glob : pattern.glob = String.ofList (stripQuotes entry.path) := by rw [Pattern.ofText_eq_ok isPattern]
    have readable : File.Parts.Readable ⟨owner, some (entry.restated pattern access target)⟩ := by
      rintro _ ⟨⟩
      exact ⟨isPath, ⟨access, rfl⟩, text_ne_nil sensible.nonempty, writableTarget.targetText⟩
    refine recovered_of_parts kind stated comment readable ?_ (File.oneLine_text pathLine writableTarget owner)
      ?_ ?_
    · rw [← shape]
      exact File.text_toList entry pattern access target owner
    · rintro unmodified ⟨noOwner, _, ⟨⟩, noWord, order⟩ _ ⟨⟩
      rcases unmistaken with plain | unmistaken
      · have noMark : '"' ∉ t := fun mark => plain (within (inner.subset mark))
        obtain ⟨audit, decision⟩ := eq_unstated_of_modifiers unmodified
        obtain ⟨c, rest, _, text⟩ := read.starts noMark noWord order
        obtain ⟨path, noMarkInside⟩ := read.path noMark
        have trimmed : trimStart line = entry.path ++ c :: rest := by
          rw [← whole audit decision, ← wholeEntry noOwner, text]
        have same : (entry.restated pattern access target).path = entry.path := by
          rw [File.Entry.restated, glob, stripQuotes_of_noMark noMarkInside,
            quoteIfNeeded_of_solid (by simpa using path.solid noMarkInside), String.toList_ofList]
        rw [same]
        exact File.apart_of_line path noMarkInside trimmed oneLine unassigned
      · obtain ⟨unopened, unassigned⟩ := File.not_mistaken (unmistaken pattern rfl) blanks
        exact ⟨fun _ _ => unopened, unassigned⟩
    · have samePath : Pattern.ofText (String.ofList (stripQuotes (quoteIfNeeded pattern.glob).toList)) true =
          .ok pattern := by
        rw [stripQuotes_quoteIfNeeded noPathMark, glob]
        exact isPattern
      have sameTarget : File.targetOf target.written = .ok target := by
        rw [File.targetOf_eq] at isTarget ⊢
        exact ChangeProfile.patternOf_written (fun pattern member => (writableTarget pattern member).2.1) isTarget
      exact Checked.map_eq_ok.mpr ⟨_, File.ofParts_entry_eq_ok_iff.mpr ⟨pattern, access, target, samePath,
        read_text sensible.exclusive sensible.fits, sameTarget, sensible, rfl⟩, shape⟩

end Rule

end ArmorPolicy
