import ArmorPolicy.Proofs.Line.Header

/-!
# Headers are read as they are written

The parts of a header are written with one space before each of them.  Names and attachments are written
between quotation marks when they hold a space, and only then.  So one that holds another blank, or a sign
that ends it, stands without marks where it needs them.  The header is read back as it was written exactly
where this does not happen.
-/

namespace ArmorPolicy

open List Option Text Line

variable {name rest s : List Char}

namespace LineForm

/-- The name is read back behind the word `profile`: a space asks for quotation marks, or none are
needed. -/
def LegibleName (name : List Char) : Prop := ' ' ∈ name ∨ ∀ c ∈ name, nameChar c = true

/-- The name is read back where it stands first. -/
def LegiblePath (name : List Char) : Prop :=
  (∀ c ∈ name, isSolid c = true) ∧ ¬['{', '#'] <:+: name

def LegibleAttachment (glob : List Char) : Prop :=
  ' ' ∈ glob ∨ ∀ c ∈ glob, isSolid c = true ∧ c ≠ '{'

instance (name : List Char) : Decidable (LegibleName name) := inferInstanceAs (Decidable (_ ∨ _))

instance (name : List Char) : Decidable (LegiblePath name) := inferInstanceAs (Decidable (_ ∧ ¬_))

instance (glob : List Char) : Decidable (LegibleAttachment glob) :=
  inferInstanceAs (Decidable (_ ∨ _))

/-! ## Names -/

section Names

variable {name : String}

theorem startsSolid_of_legibleName (nonempty : name ≠ "") (legible : LegibleName name.toList)
    (rest : List Char) : StartsSolid ((quoteIfNeeded name).toList ++ rest) := by
  by_cases space : ' ' ∈ name.toList
  · rw [toList_quoteIfNeeded_of_space space]
    exact ⟨'"', _, rfl, by decide⟩
  · rw [quoteIfNeeded_of_noSpace space]
    have plain : PlainName name.toList := ⟨by simpa using nonempty, legible.resolve_left space⟩
    exact plain.startsSolid rest

theorem name?_quoteIfNeeded (nonempty : name ≠ "") (quotable : Quotable name.toList)
    (legible : LegibleName name.toList) (rest : List Char) :
    name? ((quoteIfNeeded name).toList ++ ' ' :: rest) = some ((quoteIfNeeded name).toList, ' ' :: rest) := by
  by_cases space : ' ' ∈ name.toList
  · have quoted : quotation? ('"' :: name.toList ++ '"' :: ' ' :: rest) =
        some ('"' :: name.toList ++ ['"'], ' ' :: rest) :=
      quotation?_eq_some_iff.mpr ⟨name.toList, rfl, rfl, quotable space⟩
    have long : 0 < name.toList.length := length_pos_of_mem space
    rw [toList_quoteIfNeeded_of_space space, append_assoc, singleton_append]
    change (quotation? ('"' :: name.toList ++ '"' :: ' ' :: rest)).filter _ = _
    rw [quoted, filter_some, if_pos]
    simpa using long
  · rw [quoteIfNeeded_of_noSpace space]
    exact name?_append ⟨by simpa using nonempty, legible.resolve_left space⟩ rest

theorem stripQuotes_of_legibleName (legible : LegibleName name.toList) :
    stripQuotes (quoteIfNeeded name).toList = name.toList := by
  by_cases space : ' ' ∈ name.toList
  · rw [toList_quoteIfNeeded_of_space space, stripQuotes_quoted]
  · rw [quoteIfNeeded_of_noSpace space]
    refine stripQuotes_of_noMark fun mark => ?_
    exact absurd (legible.resolve_left space '"' mark) (by decide)

/-- A name without marks is not read as a quotation, and so it needs none.  What follows it may be a
quotation, of a path. -/
theorem legibleName_of_name? (nonempty : name ≠ "") {found behind : List Char}
    (ahead : ∀ inner, trimStart rest = '"' :: inner → startsPath inner)
    (read : name? (trimStart ((quoteIfNeeded name).toList ++ rest)) = some (found, behind))
    (same : stripQuotes found = name.toList) : LegibleName name.toList := by
  by_cases space : ' ' ∈ name.toList
  · exact .inl space
  rw [quoteIfNeeded_of_noSpace space] at read
  unfold name? at read
  split at read
  next tail first =>
    exfalso
    obtain ⟨quoted, _⟩ := filter_eq_some_iff.mp read
    obtain ⟨inner, rfl, text, absent⟩ := quotation?_eq_some_iff.mp quoted
    rw [stripQuotes_quoted] at same
    subst same
    rw [trimStart, dropWhile_append] at text
    split at text
    next blank =>
      cases shape : name.toList with
      | nil => exact nonempty (String.toList_eq_nil_iff.mp shape)
      | cons c others =>
        have path := ahead _ text
        rw [shape] at path blank
        rcases startsPath_cons.mp path with rfl | rfl
        · cases blank
        · cases blank
    next solid =>
      cases shape : name.toList.dropWhile isBlank with
      | nil => simp [shape] at solid
      | cons c others =>
        rw [shape] at text
        obtain ⟨rfl, _⟩ := List.cons.inj text
        have within := (dropWhile_sublist (l := name.toList) isBlank).subset
        rw [shape] at within
        exact absent (within mem_cons_self)
  · split at read
    · cases read
    next taken =>
      cases read
      have chars : ∀ c ∈ (trimStart (name.toList ++ rest)).takeWhile nameChar, nameChar c :=
        all_eq_true.mp all_takeWhile
      have plain : PlainName ((trimStart (name.toList ++ rest)).takeWhile nameChar) := ⟨taken, chars⟩
      rw [plain.stripQuotes_eq] at same
      rw [← same]
      exact .inr chars

end Names

/-! ## Attachments -/

section Attachments

variable {glob : String}

theorem quoteIfNeeded_starts (starts : startsPath glob.toList) :
    ∃ c others, (quoteIfNeeded glob).toList = c :: others ∧ c ∈ ['/', '@', '"'] := by
  by_cases space : ' ' ∈ glob.toList
  · exact ⟨'"', _, toList_quoteIfNeeded_of_space space, by decide⟩
  · rw [quoteIfNeeded_of_noSpace space]
    obtain ⟨sign, others, shape, rfl | rfl⟩ := exists_cons_of_startsPath starts
    · exact ⟨'/', others, shape, by decide⟩
    · exact ⟨'@', others, shape, by decide⟩

theorem startsSolid_of_startsPath (starts : startsPath glob.toList) (rest : List Char) :
    StartsSolid ((quoteIfNeeded glob).toList ++ rest) := by
  obtain ⟨c, others, shape, sign⟩ := quoteIfNeeded_starts starts
  have solid : ∀ c ∈ ['/', '@', '"'], isSolid c := by decide
  exact ⟨c, others ++ rest, by rw [shape, cons_append], solid c sign⟩

theorem startsPath_append (starts : startsPath glob.toList) (rest : List Char) :
    startsPath (glob.toList ++ rest) := by
  obtain ⟨sign, others, shape, path⟩ := exists_cons_of_startsPath starts
  rw [shape]
  exact startsPath_cons.mpr path

theorem attachment?_quoteIfNeeded (starts : startsPath glob.toList)
    (quotable : Quotable glob.toList) (legible : LegibleAttachment glob.toList) (rest : List Char) :
    attachment? ((quoteIfNeeded glob).toList ++ ' ' :: rest) =
      some ((quoteIfNeeded glob).toList, ' ' :: rest) := by
  by_cases space : ' ' ∈ glob.toList
  · have quoted : quotation? ('"' :: glob.toList ++ '"' :: ' ' :: rest) =
        some ('"' :: glob.toList ++ ['"'], ' ' :: rest) :=
      quotation?_eq_some_iff.mpr ⟨glob.toList, rfl, rfl, quotable space⟩
    rw [toList_quoteIfNeeded_of_space space, append_assoc, singleton_append]
    change (if startsPath (glob.toList ++ '"' :: ' ' :: rest)
      then quotation? ('"' :: glob.toList ++ '"' :: ' ' :: rest) else none) = _
    rw [if_pos (startsPath_append starts _), quoted]
  · rw [quoteIfNeeded_of_noSpace space]
    exact attachment?_append starts (legible.resolve_left space)

theorem stripQuotes_of_startsPath (starts : startsPath glob.toList) :
    stripQuotes (quoteIfNeeded glob).toList = glob.toList := by
  by_cases space : ' ' ∈ glob.toList
  · rw [toList_quoteIfNeeded_of_space space, stripQuotes_quoted]
  · rw [quoteIfNeeded_of_noSpace space]
    obtain ⟨sign, others, shape, rfl | rfl⟩ := exists_cons_of_startsPath starts
    · rw [shape, stripQuotes_of_head (by decide)]
    · rw [shape, stripQuotes_of_head (by decide)]

theorem legibleAttachment_of_attachment? (starts : startsPath glob.toList) {written behind : List Char}
    (read : attachment? ((quoteIfNeeded glob).toList ++ rest) = some (written, behind))
    (same : stripQuotes written = glob.toList) : LegibleAttachment glob.toList := by
  by_cases space : ' ' ∈ glob.toList
  · exact .inl space
  rw [quoteIfNeeded_of_noSpace space] at read
  have path := startsPath_append starts rest
  unfold attachment? at read
  split at read
  next inner mark =>
    rw [mark, startsPath_cons] at path
    exact absurd path (by decide)
  · rw [if_pos path] at read
    cases read
    rw [stripQuotes_takeWhile path] at same
    refine .inr fun c member => ?_
    rw [← same] at member
    simpa using all_eq_true.mp all_takeWhile c member

end Attachments

/-! ## Details -/

section Details

variable {details : HeaderDetails}

def partText (start close : String) (part : Option String) : List Char :=
  match part with
  | some text => start.toList ++ text.toList ++ close.toList
  | none => []

def behindAttachment (details : HeaderDetails) : List Char :=
  partText " xattrs=(" ")" details.xattrs ++
    (partText " flags=(" ")" details.flags ++ ' ' :: '{' :: details.comment.toList)

def detailsText (details : HeaderDetails) : List Char :=
  partText " " "" (details.attachment.map quoteIfNeeded) ++ behindAttachment details

/-- The details can be told apart in a header. -/
structure FittingDetails (details : HeaderDetails) : Prop where
  attachment : ∀ glob, details.attachment = some glob → startsPath glob.toList = true ∧ Quotable glob.toList
  xattrs : ∀ text, details.xattrs = some text → trim text.toList = text.toList ∧ ')' ∉ text.toList
  flags : ∀ text, details.flags = some text → ')' ∉ text.toList
  comment : TrailingComment details.comment

theorem optionalPart_flags? (fitting : FittingDetails details) :
    optionalPart flags? (partText " flags=(" ")" details.flags ++ ' ' :: '{' :: details.comment.toList) =
      (details.flags.map String.toList, ' ' :: '{' :: details.comment.toList) := by
  cases flags : details.flags with
  | none =>
    refine optionalPart_eq_none ⟨'{', _, rfl, by decide⟩ ?_
    rfl
  | some text =>
    have shape : partText " flags=(" ")" (some text) ++ ' ' :: '{' :: details.comment.toList =
        ' ' :: ("flags=".toList ++ '(' :: (text.toList ++ ')' :: ' ' :: '{' :: details.comment.toList)) := by
      simp [partText]
    rw [shape]
    refine optionalPart_eq_some ⟨'f', _, rfl, by decide⟩ ?_
    rw [flags?, parenthesized?_append "flags=" (fitting.flags text flags)]
    rfl

theorem flagsText_starts (details : HeaderDetails) :
    ∃ c rest, partText " flags=(" ")" details.flags ++ ' ' :: '{' :: details.comment.toList =
      ' ' :: c :: rest ∧ (c = 'f' ∨ c = '{') := by
  cases details.flags with
  | none => exact ⟨'{', _, rfl, .inr rfl⟩
  | some text => exact ⟨'f', _, rfl, .inl rfl⟩

theorem optionalPart_xattrs? (fitting : FittingDetails details) :
    optionalPart (parenthesized? "xattrs=") (behindAttachment details) =
      (details.xattrs.map String.toList,
        partText " flags=(" ")" details.flags ++ ' ' :: '{' :: details.comment.toList) := by
  unfold behindAttachment
  cases xattrs : details.xattrs with
  | none =>
    obtain ⟨c, rest, shape, first⟩ := flagsText_starts details
    rw [partText, nil_append, shape]
    rcases first with rfl | rfl
    · exact optionalPart_eq_none ⟨_, _, rfl, by decide⟩ (parenthesized?_of_head rfl (by decide))
    · exact optionalPart_eq_none ⟨_, _, rfl, by decide⟩ (parenthesized?_of_head rfl (by decide))
  | some text =>
    generalize partText " flags=(" ")" details.flags ++ ' ' :: '{' :: details.comment.toList = behind
    have shape : partText " xattrs=(" ")" (some text) ++ behind =
        ' ' :: ("xattrs=".toList ++ '(' :: (text.toList ++ ')' :: behind)) := by
      simp [partText]
    rw [shape]
    refine optionalPart_eq_some ⟨'x', _, rfl, by decide⟩ ?_
    exact parenthesized?_append "xattrs=" (fitting.xattrs text xattrs).2 behind

theorem behindAttachment_starts (details : HeaderDetails) :
    ∃ c rest, behindAttachment details = ' ' :: c :: rest ∧ c ∈ ['x', 'f', '{'] := by
  unfold behindAttachment
  cases details.xattrs with
  | none =>
    obtain ⟨c, rest, shape, first⟩ := flagsText_starts details
    exact ⟨c, rest, shape, by simp [first]⟩
  | some text => exact ⟨'x', _, rfl, by decide⟩

theorem detailsText_of_some {glob : String} (attached : details.attachment = some glob) :
    detailsText details = ' ' :: ((quoteIfNeeded glob).toList ++ behindAttachment details) := by
  simp [detailsText, attached, partText]

theorem detailsText_of_none (noAttachment : details.attachment = none) :
    detailsText details = behindAttachment details := by
  simp [detailsText, noAttachment, partText]

theorem optionalPart_attachment? (fitting : FittingDetails details)
    (legible : ∀ glob ∈ details.attachment, LegibleAttachment glob.toList) :
    optionalPart attachment? (detailsText details) =
      (details.attachment.map fun glob => (quoteIfNeeded glob).toList, behindAttachment details) := by
  obtain ⟨c, rest, shape, first⟩ := behindAttachment_starts details
  cases attached : details.attachment with
  | none =>
    rw [detailsText_of_none attached, shape]
    have apart : ∀ c ∈ ['x', 'f', '{'], isSolid c ∧ c ≠ '"' ∧ c ≠ '/' ∧ c ≠ '@' := by decide
    obtain ⟨solid, noMark, noSlash, noSign⟩ := apart c first
    refine optionalPart_eq_none ⟨c, rest, rfl, solid⟩ ?_
    simp [attachment?, startsPath, noMark, noSlash, noSign]
  | some glob =>
    obtain ⟨starts, quotable⟩ := fitting.attachment glob attached
    rw [detailsText_of_some attached, shape]
    exact optionalPart_eq_some (startsSolid_of_startsPath starts _)
      (attachment?_quoteIfNeeded starts quotable (legible glob attached) _)

theorem details?_detailsText (fitting : FittingDetails details)
    (legible : ∀ glob ∈ details.attachment, LegibleAttachment glob.toList) :
    details? (detailsText details) = some details := by
  have attachment : (details.attachment.map fun glob => (quoteIfNeeded glob).toList).map
      (fun written => textOf (stripQuotes written)) = details.attachment := by
    cases attached : details.attachment with
    | none => rfl
    | some glob => simp [textOf, stripQuotes_of_startsPath (fitting.attachment glob attached).1]
  have xattrs : (details.xattrs.map String.toList).map (fun written => textOf (trim written)) =
      details.xattrs := by
    cases given : details.xattrs with
    | none => rfl
    | some text => simp [textOf, (fitting.xattrs text given).1]
  have flags : (details.flags.map String.toList).map textOf = details.flags := by
    cases details.flags <;> simp [textOf]
  simp only [details?, optionalPart_attachment? fitting legible, optionalPart_xattrs? fitting,
    optionalPart_flags? fitting, braceEnding?_of_trailingComment fitting.comment, attachment, xattrs, flags]
  rfl

theorem detailsText_starts (fitting : FittingDetails details) : OpensPart (detailsText details) := by
  obtain ⟨c, rest, shape, first⟩ := behindAttachment_starts details
  cases attached : details.attachment with
  | none =>
    have apart : ∀ c ∈ ['x', 'f', '{'], isSolid c ∧ c ≠ '#' := by decide
    rw [detailsText_of_none attached]
    exact ⟨c, rest, shape, apart c first⟩
  | some glob =>
    have apart : ∀ c ∈ ['/', '@', '"'], isSolid c ∧ c ≠ '#' := by decide
    obtain ⟨c, others, text, sign⟩ := quoteIfNeeded_starts (fitting.attachment glob attached).1
    rw [detailsText_of_some attached, text]
    exact ⟨c, _, rfl, apart c sign⟩

theorem attachment_of_details? (found : details? s = some details) :
    details.attachment = (optionalPart attachment? s).1.map fun written => textOf (stripQuotes written) := by
  obtain ⟨_, _, rfl⟩ := map_eq_some_iff.mp found
  rfl

theorem legibleAttachment_of_details? {glob : String} (attached : details.attachment = some glob)
    (starts : startsPath glob.toList) {read : HeaderDetails}
    (found : details? (detailsText details) = some read)
    (same : read.attachment = some glob) : LegibleAttachment glob.toList := by
  have solid := startsSolid_of_startsPath starts (behindAttachment details)
  rw [detailsText_of_some attached] at found
  obtain ⟨written, part, text⟩ := map_eq_some_iff.mp ((attachment_of_details? found).symm.trans same)
  cases success : attachment? ((quoteIfNeeded glob).toList ++ behindAttachment details) with
  | none =>
    rw [optionalPart_eq_none solid success] at part
    cases part
  | some cut =>
    rw [optionalPart_eq_some solid success] at part
    refine legibleAttachment_of_attachment? starts success ?_
    rw [Option.some.inj part, ← text, textOf, String.toList_ofList]

theorem startsPath_of_quotation (starts : ∀ glob ∈ details.attachment, startsPath glob.toList)
    {inner : List Char} (first : trimStart (detailsText details) = '"' :: inner) : startsPath inner := by
  cases attached : details.attachment with
  | none =>
    obtain ⟨c, rest, shape, sign⟩ := behindAttachment_starts details
    have apart : ∀ c ∈ ['x', 'f', '{'], isSolid c ∧ c ≠ '"' := by decide
    rw [detailsText_of_none attached, shape, trimStart_space, trimStart_cons_of_solid (apart c sign).1] at first
    exact absurd (List.cons.inj first).1 (apart c sign).2
  | some glob =>
    have path := starts glob attached
    rw [detailsText_of_some attached, trimStart_space,
      trimStart_of_startsSolid (startsSolid_of_startsPath path _)] at first
    by_cases space : ' ' ∈ glob.toList
    · rw [toList_quoteIfNeeded_of_space space, append_assoc, cons_append] at first
      rw [← (List.cons.inj first).2]
      exact startsPath_append path _
    · rw [quoteIfNeeded_of_noSpace space] at first
      have marked := startsPath_append path (behindAttachment details)
      rw [first, startsPath_cons] at marked
      exact absurd marked (by decide)

end Details

/-! ## Headers -/

section Headers

variable {details : HeaderDetails}

theorem header?_word (s : List Char) :
    header? ("profile ".toList ++ s) =
      (name? (trimStart s)).bind fun cut => (details? cut.2).map fun details =>
        { details with name := textOf (stripQuotes cut.1), profileWord := true } := by
  have line : "profile ".toList ++ s = "profile".toList ++ ' ' :: s := by simp
  have start : trimStart ("profile".toList ++ ' ' :: s) = "profile".toList ++ ' ' :: s :=
    trimStart_cons_of_solid (by decide) _
  have noPath : plainHeader? ("profile".toList ++ ' ' :: s) = none := rfl
  have word : afterWord? "profile" ("profile".toList ++ ' ' :: s) = some (trimStart s) := by
    rw [afterWord?, after?_append, Option.bind_some]
    rfl
  rw [line]
  simp only [header?, start, noPath, wordedHeader?, word, Option.bind_some]
  cases name? (trimStart s) with
  | none => rfl
  | some cut =>
    simp only [Option.bind_some, Option.map_map]
    rfl

theorem header?_slash (s : List Char) :
    header? ('/' :: s) =
      (shortest? isSolid details? s).map fun cut =>
        { cut.2 with name := textOf ('/' :: cut.1), profileWord := false } := by
  have start : trimStart ('/' :: s) = '/' :: s := trimStart_cons_of_solid (by decide) s
  have noWord : wordedHeader? ('/' :: s) = none := rfl
  simp only [header?, start, plainHeader?, noWord]
  cases shortest? isSolid details? s with
  | none => rfl
  | some cut => rfl

section Written

variable {name : String} (fitting : FittingDetails details)
  (attachment : ∀ glob ∈ details.attachment, LegibleAttachment glob.toList)
include fitting attachment

theorem header?_worded (nonempty : name ≠ "") (quotable : Quotable name.toList)
    (legible : LegibleName name.toList) :
    header? ("profile ".toList ++ ((quoteIfNeeded name).toList ++ detailsText details)) =
      some { details with name, profileWord := true } := by
  obtain ⟨c, rest, shape, _⟩ := detailsText_starts fitting
  rw [header?_word, trimStart_of_startsSolid (startsSolid_of_legibleName nonempty legible _), shape,
    name?_quoteIfNeeded nonempty quotable legible, bind_some, ← shape]
  simp only [details?_detailsText fitting attachment, map_some, stripQuotes_of_legibleName legible, textOf,
    String.ofList_toList]

theorem header?_path (path : name.toList.head? = some '/') (legible : LegiblePath name.toList) :
    header? (name.toList ++ detailsText details) = some { details with name, profileWord := false } := by
  obtain ⟨rest, text⟩ := head?_eq_some_iff.mp path
  obtain ⟨allSolid, noComment⟩ := legible
  rw [text] at allSolid noComment
  have solid : ∀ c ∈ rest, isSolid c := fun c member => allSolid c (mem_cons_of_mem _ member)
  have inner : ∀ start suffix, rest = start ++ suffix → suffix ≠ [] →
      details? (suffix ++ detailsText details) = none := by
    intro start suffix split nonempty
    refine details?_suffix_eq_none solid ?_ (ending?_of_opensPart (detailsText_starts fitting))
      ⟨start, split.symm⟩ nonempty
    exact fun comment => noComment (comment.trans (suffix_cons '/' rest).isInfix)
  have found := shortest?_append solid inner (details?_detailsText fitting attachment)
  rw [text, cons_append, header?_slash, found, map_some, textOf, ← text, String.ofList_toList]

omit attachment in
theorem ofLine_hat (nonempty : name ≠ "") (quotable : Quotable name.toList)
    (legible : LegibleName name.toList) (noAttachment : details.attachment = none)
    (noXattrs : details.xattrs = none) :
    ofLine ('^' :: ((quoteIfNeeded name).toList ++ detailsText details)) =
      .hat { name, flags := details.flags, comment := details.comment } := by
  have shape : detailsText details =
      partText " flags=(" ")" details.flags ++ ' ' :: '{' :: details.comment.toList := by
    simp [detailsText, behindAttachment, noAttachment, noXattrs, partText]
  have start : trimStart ('^' :: ((quoteIfNeeded name).toList ++ detailsText details)) =
      '^' :: ((quoteIfNeeded name).toList ++ detailsText details) := trimStart_cons_of_solid (by decide) _
  have noHeader : header? ('^' :: ((quoteIfNeeded name).toList ++ detailsText details)) = none := by
    simp only [header?, start]
    rfl
  have sign : after? "^" ('^' :: ((quoteIfNeeded name).toList ++ detailsText details)) =
      some ((quoteIfNeeded name).toList ++ detailsText details) := after?_append "^" _
  have named : name? ((quoteIfNeeded name).toList ++ detailsText details) =
      some ((quoteIfNeeded name).toList, detailsText details) := by
    obtain ⟨c, rest, text, _⟩ := detailsText_starts fitting
    rw [text]
    exact name?_quoteIfNeeded nonempty quotable legible _
  have flags : (details.flags.map String.toList).map textOf = details.flags := by
    cases details.flags <;> simp [textOf]
  have found : hat? ('^' :: ((quoteIfNeeded name).toList ++ detailsText details)) =
      some { name, flags := details.flags, comment := details.comment } := by
    rw [hat?, start, sign, some_or, bind_some, named, bind_some, shape]
    simp only [optionalPart_flags? fitting, braceEnding?_of_trailingComment fitting.comment, map_some,
      stripQuotes_of_legibleName legible, textOf, String.ofList_toList, flags]
  simp only [ofLine, noHeader, found]

end Written

theorem legiblePath_of_header? {header : HeaderLine} (path : name.head? = some '/')
    (oneLine : '\n' ∉ name ++ rest) (read : header? (name ++ rest) = some header)
    (same : header.name.toList = name) : LegiblePath name := by
  obtain ⟨name, rfl⟩ := head?_eq_some_iff.mp path
  rw [cons_append, header?_slash] at read
  obtain ⟨⟨part, details⟩, found, rfl⟩ := map_eq_some_iff.mp read
  obtain ⟨behind, text, solid, _, earlier⟩ := shortest?_eq_some found
  obtain rfl : part = name := by simpa [textOf] using same
  obtain rfl := append_cancel_left text
  refine ⟨forall_mem_cons.mpr ⟨by decide, solid⟩, ?_⟩
  rintro ⟨start, others, shape⟩
  cases start with
  | nil => exact absurd (List.cons.inj shape).1 (by decide)
  | cons c start =>
    obtain rfl : start ++ '{' :: '#' :: others = part := by simpa using (List.cons.inj shape).2
    have unread := earlier start _ rfl (by simp)
    have readable := details?_brace (s := others ++ rest) fun newline => oneLine (by
      rcases mem_append.mp newline with inner | behind
      · simp [inner]
      · simp [behind])
    rw [cons_append, cons_append] at unread
    rw [unread] at readable
    cases readable

end Headers

end LineForm

end ArmorPolicy
