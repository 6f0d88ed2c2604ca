import ArmorPolicy.Line.Form
import ArmorPolicy.Proofs.Line.Pieces

/-!
# What is read from a header

A header is its name, an attachment, extended attributes, flags, an opening brace and a comment.  What is
read from one has a name, and what it holds stands in the line.
-/

namespace ArmorPolicy.LineForm

open String List Option Text Line

variable {α : Type} {header : HeaderLine} {inner line name rest s : List Char}
  {read : List Char → Option (α × List Char)}

/-! ## Optional parts -/

/-- Behind one space a solid character, which starts no comment. -/
def OpensPart (s : List Char) : Prop := ∃ c rest, s = ' ' :: c :: rest ∧ isSolid c = true ∧ c ≠ '#'

theorem optionalPart_eq_some {part : α} (starts : StartsSolid s) (found : read s = some (part, rest)) :
    optionalPart read (' ' :: s) = (some part, rest) := by
  simp [optionalPart, afterBlanks?_space starts, found]

theorem optionalPart_eq_none (starts : StartsSolid s)
    (absent : read s = none) : optionalPart read (' ' :: s) = (none, ' ' :: s) := by
  simp [optionalPart, afterBlanks?_space starts, absent]

theorem parenthesized?_append (start : String) (absent : ')' ∉ inner) (rest : List Char) :
    parenthesized? start (start.toList ++ '(' :: (inner ++ ')' :: rest)) = some (inner, rest) := by
  have opened : after? "(" ('(' :: (inner ++ ')' :: rest)) = some (inner ++ ')' :: rest) :=
    after?_append "(" _
  simp [parenthesized?, after?_append, opened, upTo?_append absent]

theorem parenthesized?_of_head {start : String} {w c : Char} {word : List Char}
    (text : start.toList = w :: word) (differs : w ≠ c) : parenthesized? start (c :: s) = none := by
  simp [parenthesized?, after?, text, afterChars?, differs]

theorem startsPath_cons {c : Char} : startsPath (c :: s) ↔ c = '/' ∨ c = '@' := by
  simp [startsPath]

theorem attachment?_append {glob behind : List Char} (starts : startsPath glob)
    (word : ∀ c ∈ glob, isSolid c ∧ c ≠ '{') :
    attachment? (glob ++ ' ' :: behind) = some (glob, ' ' :: behind) := by
  cases glob with
  | nil => cases starts
  | cons first rest =>
    have solid : ∀ c ∈ first :: rest, (isSolid c && c != '{') := by
      intro c member
      simp [word c member]
    have sign := startsPath_cons.mp starts
    have stops : (isSolid ' ' && ' ' != '{') = false := by decide
    unfold attachment?
    split
    next inner mark =>
      rw [cons_append] at mark
      rw [(List.cons.inj mark).1] at sign
      exact absurd sign (by decide)
    · have startsHere : startsPath (first :: rest ++ ' ' :: behind) := startsPath_cons.mpr sign
      rw [if_pos startsHere]
      simp only [takeWhile_append_of_stop solid stops, dropWhile_append_of_stop solid stops]

/-! ## Names and details -/

theorem details?_of_startsSolid (starts : StartsSolid s)
    (noComment : ∀ rest, s = '{' :: rest → ending? rest = none) : details? s = none := by
  have nothing : ∀ {α : Type} (read : List Char → Option (α × List Char)),
      optionalPart read s = (none, s) := by
    intro α read
    simp [optionalPart, afterBlanks?_of_startsSolid starts]
  have noBrace : braceEnding? s = none := by
    unfold braceEnding?
    rw [trimStart_of_startsSolid starts]
    split
    next rest => exact noComment rest rfl
    · rfl
  simp only [details?, nothing, noBrace]
  rfl

theorem details?_suffix_eq_none {part suffix : List Char} (solid : ∀ c ∈ part, isSolid c)
    (noComment : ¬['{', '#'] <:+: part) (unended : ending? rest = none) (within : suffix <:+ part)
    (nonempty : suffix ≠ []) : details? (suffix ++ rest) = none := by
  obtain ⟨c, others, rfl⟩ := exists_cons_of_ne_nil nonempty
  refine details?_of_startsSolid ⟨c, _, rfl, solid c (within.subset mem_cons_self)⟩ ?_
  intro behind shape
  obtain ⟨rfl, rfl⟩ := List.cons.inj shape
  cases others with
  | nil => exact unended
  | cons d others =>
    refine ending?_of_solid (solid d (within.subset (by simp))) ?_ _
    rintro rfl
    exact noComment ((prefix_append ['{', '#'] others).isInfix.trans within.isInfix)

theorem ending?_of_opensPart (part : OpensPart s) : ending? s = none := by
  obtain ⟨c, rest, rfl, solid, plain⟩ := part
  rw [← singleton_append, ending?_blanks (by decide), ending?_of_solid solid plain]

/-- A word that needs no quotation marks as a name. -/
structure PlainName (name : List Char) : Prop where
  nonempty : name ≠ []
  chars : ∀ c ∈ name, nameChar c = true

theorem PlainName.startsSolid (plain : PlainName name) (rest : List Char) : StartsSolid (name ++ rest) := by
  cases name with
  | nil => exact absurd rfl plain.nonempty
  | cons c others =>
    have char := plain.chars c mem_cons_self
    simp only [nameChar, Bool.and_eq_true] at char
    exact ⟨c, others ++ rest, rfl, char.1.1⟩

theorem PlainName.stripQuotes_eq (plain : PlainName name) : stripQuotes name = name := by
  cases name with
  | nil => rfl
  | cons c others =>
    have char := plain.chars c mem_cons_self
    simp only [nameChar, Bool.and_eq_true, bne_iff_ne] at char
    exact stripQuotes_of_head char.1.2

theorem name?_append (plain : PlainName name) (rest : List Char) :
    name? (name ++ ' ' :: rest) = some (name, ' ' :: rest) := by
  have stops : nameChar ' ' = false := by decide
  cases name with
  | nil => exact absurd rfl plain.nonempty
  | cons c others =>
    have char := plain.chars c mem_cons_self
    simp only [nameChar, Bool.and_eq_true, bne_iff_ne] at char
    unfold name?
    split
    next mark => exact absurd (List.cons.inj mark).1 char.1.2
    · simp only [takeWhile_append_of_stop plain.chars stops, dropWhile_append_of_stop plain.chars stops]

/-! ## Reading -/

theorem optionalPart_cases {found : Option α} (result : optionalPart read s = (found, rest)) :
    (found = none ∧ rest = s) ∨
      ∃ part inner, found = some part ∧ inner <:+ s ∧ read inner = some (part, rest) := by
  unfold optionalPart at result
  split at result
  next part behind success =>
    obtain ⟨inner, blanks, read⟩ := bind_eq_some_iff.mp success
    cases result
    exact .inr ⟨part, inner, rfl, afterBlanks?_suffix blanks, read⟩
  · cases result
    exact .inl ⟨rfl, rfl⟩

theorem parenthesized?_eq_some {start : String} (found : parenthesized? start s = some (inner, rest)) :
    s = start.toList ++ '(' :: (inner ++ ')' :: rest) ∧ ')' ∉ inner := by
  obtain ⟨behind, opened, closed⟩ := bind_eq_some_iff.mp found
  obtain ⟨middle, word, sign⟩ := bind_eq_some_iff.mp opened
  obtain ⟨rfl, absent⟩ := upTo?_eq_some_iff.mp closed
  rw [after?_eq_some_iff.mp word, after?_eq_some_iff.mp sign]
  exact ⟨rfl, absent⟩

theorem flags?_eq_some (found : flags? s = some (inner, rest)) : ')' ∉ inner ∧ inner ⊆ s ∧ rest ⊆ s := by
  rcases or_eq_some_iff.mp found with named | ⟨_, bare⟩
  · obtain ⟨rfl, absent⟩ := parenthesized?_eq_some named
    exact ⟨absent, by grind, by grind⟩
  · obtain ⟨rfl, absent⟩ := parenthesized?_eq_some bare
    exact ⟨absent, by grind, by grind⟩

/-- A text that can stand between quotation marks if a space asks for them. -/
def Quotable (text : List Char) : Prop := ' ' ∈ text → '"' ∉ text

theorem quotable_of_solid {text : List Char} (solid : ∀ c ∈ text, isSolid c) : Quotable text :=
  fun space => absurd (solid _ space) (by decide)

theorem exists_cons_of_startsPath (starts : startsPath s) :
    ∃ sign rest, s = sign :: rest ∧ (sign = '/' ∨ sign = '@') := by
  cases s with
  | nil => cases starts
  | cons sign rest => exact ⟨sign, rest, rfl, startsPath_cons.mp starts⟩

theorem stripQuotes_takeWhile (starts : startsPath s) :
    stripQuotes (s.takeWhile fun c => isSolid c && c != '{') =
      s.takeWhile fun c => isSolid c && c != '{' := by
  obtain ⟨sign, rest, rfl, rfl | rfl⟩ := exists_cons_of_startsPath starts
  · rfl
  · rfl

theorem attachment?_eq_some {written : List Char} (found : attachment? s = some (written, rest)) :
    (startsPath (stripQuotes written) ∧ Quotable (stripQuotes written)) ∧
      stripQuotes written ⊆ s ∧ rest ⊆ s := by
  unfold attachment? at found
  split at found
  next inner =>
    split at found
    next path =>
      obtain ⟨quoted, rfl, text, absent⟩ := quotation?_eq_some_iff.mp found
      obtain rfl : inner = quoted ++ '"' :: rest := (List.cons.inj text).2
      rw [stripQuotes_quoted]
      refine ⟨⟨?_, fun _ => absent⟩, by grind, by grind⟩
      cases quoted with
      | nil => simp [startsPath] at path
      | cons c quoted => exact startsPath_cons.mpr (startsPath_cons.mp path)
    · cases found
  · split at found
    next path =>
      cases found
      rw [stripQuotes_takeWhile path]
      have plain : ∀ c ∈ s.takeWhile fun c => isSolid c && c != '{', isSolid c ∧ c ≠ '{' :=
        fun c member => by simpa using all_eq_true.mp all_takeWhile c member
      refine ⟨⟨?_, quotable_of_solid fun c member => (plain c member).1⟩, (takeWhile_sublist _).subset,
        (dropWhile_sublist _).subset⟩
      obtain ⟨sign, rest, rfl, rfl | rfl⟩ := exists_cons_of_startsPath path
      · rfl
      · rfl
    · cases found

/-- What the details of a header are when they are read from a text. -/
structure ReadDetails (s : List Char) (details : HeaderDetails) : Prop where
  attachment : ∀ glob, details.attachment = some glob →
    startsPath glob.toList = true ∧ Quotable glob.toList ∧ glob.toList ⊆ s
  xattrs : ∀ text, details.xattrs = some text →
    trim text.toList = text.toList ∧ ')' ∉ text.toList ∧ text.toList ⊆ s
  flags : ∀ text, details.flags = some text → ')' ∉ text.toList ∧ text.toList ⊆ s
  comment : TrailingComment details.comment

theorem optionalPart_spec (read : List Char → Option (List Char × List Char)) (s : List Char)
    (good : List Char → Prop) (text : List Char → List Char)
    (spec : ∀ inner part rest, inner ⊆ s → read inner = some (part, rest) →
      good part ∧ text part ⊆ inner ∧ rest ⊆ inner) :
    (∀ part, (optionalPart read s).1 = some part → good part ∧ text part ⊆ s) ∧
      (optionalPart read s).2 ⊆ s := by
  rcases result : optionalPart read s with ⟨found, rest⟩
  rcases optionalPart_cases result with ⟨rfl, rfl⟩ | ⟨part, inner, rfl, suffix, success⟩
  · constructor
    · intro part impossible
      cases impossible
    · exact List.Subset.refl _
  · obtain ⟨held, within, further⟩ := spec inner part rest suffix.subset success
    constructor
    · intro part same
      cases same
      exact ⟨held, Subset.trans within suffix.subset⟩
    · exact Subset.trans further suffix.subset

theorem readDetails_of_details? {details : HeaderDetails} (found : details? s = some details) :
    ReadDetails s details := by
  obtain ⟨comment, ended, rfl⟩ := map_eq_some_iff.mp found
  obtain ⟨attachmentSpec, inText⟩ := optionalPart_spec attachment? s
    (fun written => startsPath (stripQuotes written) ∧ Quotable (stripQuotes written)) stripQuotes
    fun _ _ _ _ success => attachment?_eq_some success
  obtain ⟨xattrsSpec, inAttachment⟩ := optionalPart_spec (parenthesized? "xattrs=") _
    (fun inner => ')' ∉ inner) id fun _ _ _ _ success => by
      obtain ⟨rfl, absent⟩ := parenthesized?_eq_some success
      exact ⟨absent, by grind, by grind⟩
  obtain ⟨flagsSpec, _⟩ := optionalPart_spec flags? _ (fun inner => ')' ∉ inner) id
    fun _ _ _ _ success => flags?_eq_some success
  refine ⟨?_, ?_, ?_, trailingComment_of_braceEnding? ended⟩
  · intro glob given
    obtain ⟨written, read, rfl⟩ := map_eq_some_iff.mp given
    obtain ⟨⟨path, quotable⟩, within⟩ := attachmentSpec written read
    rw [textOf, toList_ofList]
    exact ⟨path, quotable, within⟩
  · intro text given
    obtain ⟨written, read, rfl⟩ := map_eq_some_iff.mp given
    obtain ⟨absent, within⟩ := xattrsSpec written read
    have part : trim written ⊆ written := (trim_sublist written).subset
    rw [textOf, toList_ofList]
    exact ⟨trim_trim written, fun member => absent (part member),
      Subset.trans part (Subset.trans within inText)⟩
  · intro text given
    obtain ⟨written, read, rfl⟩ := map_eq_some_iff.mp given
    obtain ⟨absent, within⟩ := flagsSpec written read
    rw [textOf, toList_ofList]
    exact ⟨absent, Subset.trans within (Subset.trans inAttachment inText)⟩

theorem ReadDetails.mono {t : List Char} {details : HeaderDetails} (read : ReadDetails s details)
    (bigger : s ⊆ t) : ReadDetails t details where
  attachment glob given :=
    have ⟨path, quotable, within⟩ := read.attachment glob given
    ⟨path, quotable, Subset.trans within bigger⟩
  xattrs text given :=
    have ⟨trimmed, absent, within⟩ := read.xattrs text given
    ⟨trimmed, absent, Subset.trans within bigger⟩
  flags text given :=
    have ⟨absent, within⟩ := read.flags text given
    ⟨absent, Subset.trans within bigger⟩
  comment := read.comment

theorem name?_eq_some (found : name? s = some (name, rest)) :
    stripQuotes name ≠ [] ∧ Quotable (stripQuotes name) ∧ stripQuotes name ⊆ s ∧ rest ⊆ s := by
  unfold name? at found
  split at found
  next behind =>
    obtain ⟨quoted, long⟩ := filter_eq_some_iff.mp found
    obtain ⟨inner, rfl, text, absent⟩ := quotation?_eq_some_iff.mp quoted
    rw [stripQuotes_quoted, text]
    refine ⟨?_, fun _ => absent, by grind, by grind⟩
    rintro rfl
    simp at long
  · split at found
    · cases found
    next nonempty =>
      cases found
      have chars : ∀ c ∈ s.takeWhile nameChar, nameChar c := all_eq_true.mp all_takeWhile
      have plain : PlainName (s.takeWhile nameChar) := ⟨nonempty, chars⟩
      rw [plain.stripQuotes_eq]
      refine ⟨nonempty, quotable_of_solid fun c member => ?_, (takeWhile_sublist _).subset,
        (dropWhile_sublist _).subset⟩
      have char := chars c member
      simp only [nameChar, Bool.and_eq_true] at char
      exact char.1.1

theorem details?_brace (oneLine : '\n' ∉ s) : (details? ('{' :: '#' :: s)).isSome := by
  have starts : StartsSolid ('{' :: '#' :: s) := ⟨'{', '#' :: s, rfl, by decide⟩
  have nothing : ∀ {α : Type} (read : List Char → Option (α × List Char)),
      optionalPart read ('{' :: '#' :: s) = (none, '{' :: '#' :: s) := by
    intro α read
    simp [optionalPart, afterBlanks?_of_startsSolid starts]
  have comment : braceEnding? ('{' :: '#' :: s) = ending? ('#' :: s) := by
    simp [braceEnding?, trimStart_of_startsSolid starts]
  simpa only [details?, nothing, isSome_map, comment] using Option.isSome_of_eq_some (ending?_sign oneLine)

/-- What the header of a profile is when it is read from a line. -/
structure ReadHeader (line : List Char) (header : HeaderLine) : Prop where
  details : ReadDetails line header.toHeaderDetails
  nonempty : header.name.toList ≠ []
  quotable : Quotable header.name.toList
  within : header.name.toList ⊆ line

theorem readHeader_of_header? (found : header? line = some header) : ReadHeader line header := by
  have inLine : trimStart line ⊆ line := (trimStart_sublist line).subset
  simp only [header?] at found
  split at found
  next name details plain =>
    cases found
    unfold plainHeader? at plain
    split at plain
    next rest start =>
      obtain ⟨⟨part, read⟩, inner, ⟨⟩⟩ := map_eq_some_iff.mp plain
      obtain ⟨behind, rfl, solid, success, earlier⟩ := shortest?_eq_some inner
      have within : behind ⊆ trimStart line := by
        rw [start]
        intro c
        simp +contextual
      have name : (textOf (stripQuotes (['/'] ++ part))).toList = '/' :: part := by
        simp [textOf, stripQuotes]
      have nameInLine : '/' :: part ⊆ line := by
        refine List.Subset.trans ?_ inLine
        rw [start, ← cons_append]
        exact subset_append_left _ _
      refine ⟨(readDetails_of_details? success).mono (Subset.trans within inLine), ?_, ?_, ?_⟩
      · rw [name]
        exact cons_ne_nil _ _
      · rw [name]
        exact quotable_of_solid (forall_mem_cons.mpr ⟨by decide, solid⟩)
      · rwa [name]
    next rest start =>
      obtain ⟨⟨written, behind⟩, quoted, detailed⟩ := bind_eq_some_iff.mp plain
      obtain ⟨read, success, ⟨⟩⟩ := map_eq_some_iff.mp detailed
      obtain ⟨inner, rfl, text, absent⟩ := quotation?_eq_some_iff.mp quoted
      have within : inner ⊆ trimStart line ∧ behind ⊆ trimStart line := by
        rw [text]
        exact ⟨by grind, by grind⟩
      have name : (textOf (stripQuotes ('"' :: inner ++ ['"']))).toList = inner := by
        rw [stripQuotes_quoted, textOf, toList_ofList]
      refine ⟨(readDetails_of_details? success).mono (Subset.trans within.2 inLine), ?_, ?_, ?_⟩
      · rw [name]
        rintro rfl
        rw [start] at text
        cases text
      · rw [name]
        exact fun _ => absent
      · rw [name]
        exact Subset.trans within.1 inLine
    · cases plain
  · obtain ⟨⟨name, read⟩, worded, same⟩ := map_eq_some_iff.mp found
    subst same
    obtain ⟨⟨written, behind⟩, named, detailed⟩ := bind_eq_some_iff.mp worded
    obtain ⟨inner, word, named⟩ := bind_eq_some_iff.mp named
    obtain ⟨read, success, ⟨⟩⟩ := map_eq_some_iff.mp detailed
    obtain ⟨nonempty, quotable, inName, within⟩ := name?_eq_some named
    have inInner := Subset.trans (afterWord?_suffix word).subset inLine
    refine ⟨(readDetails_of_details? success).mono (Subset.trans within inInner), ?_, ?_, ?_⟩
    · simpa [textOf] using nonempty
    · rwa [textOf, toList_ofList]
    · rw [textOf, toList_ofList]
      exact Subset.trans inName inInner

/-- What the header of a hat is when it is read from a line. -/
structure ReadHat (line : List Char) (hat : HatLine) : Prop where
  nonempty : hat.name.toList ≠ []
  quotable : Quotable hat.name.toList
  within : hat.name.toList ⊆ line
  flags : ∀ text, hat.flags = some text → ')' ∉ text.toList ∧ text.toList ⊆ line
  comment : TrailingComment hat.comment

theorem readHat_of_hat? {hat : HatLine} (found : hat? line = some hat) : ReadHat line hat := by
  obtain ⟨⟨name, behind⟩, named, finished⟩ := bind_eq_some_iff.mp found
  obtain ⟨inner, start, named⟩ := bind_eq_some_iff.mp named
  have inLine : inner ⊆ line := by
    refine List.Subset.trans ?_ (trimStart_sublist line).subset
    rcases or_eq_some_iff.mp start with sign | ⟨_, word⟩
    · rw [after?_eq_some_iff.mp sign]
      exact subset_append_right _ _
    · exact (afterWord?_suffix word).subset
  obtain ⟨nonempty, quotable, inName, within⟩ := name?_eq_some named
  obtain ⟨comment, ended, rfl⟩ := map_eq_some_iff.mp finished
  obtain ⟨flagsSpec, _⟩ := optionalPart_spec flags? behind (fun inner => ')' ∉ inner) id
    fun _ _ _ _ success => flags?_eq_some success
  refine ⟨by simpa [textOf] using nonempty, by rwa [textOf, toList_ofList], ?_, ?_,
    trailingComment_of_braceEnding? ended⟩
  · rw [textOf, toList_ofList]
    exact Subset.trans inName inLine
  intro text given
  obtain ⟨written, read, rfl⟩ := map_eq_some_iff.mp given
  obtain ⟨absent, inBehind⟩ := flagsSpec written read
  rw [textOf, toList_ofList]
  exact ⟨absent, Subset.trans inBehind (Subset.trans within inLine)⟩

theorem ofLine_of_none (noHeader : header? line = none) (noHat : hat? line = none) :
    (∀ header, ofLine line ≠ .header header) ∧ ∀ hat, ofLine line ≠ .hat hat := by
  simp only [ofLine, noHeader, noHat]
  cases isClosing line <;> cases isConditional line <;> cases isAlternative line <;>
    cases changeHat? line <;> cases isComment line <;> simp

theorem header?_of_ofLine (form : ofLine line = .header header) : header? line = some header := by
  cases found : header? line with
  | some read =>
    rw [ofLine, found] at form
    cases form
    rfl
  | none =>
    cases hatFound : hat? line with
    | some hat =>
      rw [ofLine, found] at form
      simp only [hatFound] at form
      cases form
    | none => exact absurd form ((ofLine_of_none found hatFound).1 header)

theorem readHeader_of_ofLine (form : ofLine line = .header header) : ReadHeader line header :=
  readHeader_of_header? (header?_of_ofLine form)

theorem readHat_of_ofLine {hat : HatLine} (form : ofLine line = .hat hat) : ReadHat line hat := by
  cases found : header? line with
  | some read =>
    rw [ofLine, found] at form
    cases form
  | none =>
    cases hatFound : hat? line with
    | some read =>
      rw [ofLine, found] at form
      simp only [hatFound] at form
      cases form
      exact readHat_of_hat? hatFound
    | none => exact absurd form ((ofLine_of_none found hatFound).2 hat)

end ArmorPolicy.LineForm
