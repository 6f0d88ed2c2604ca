import ArmorPolicy.Proofs.Line.Path
import ArmorPolicy.Proofs.Rule.Dispatch
import ArmorPolicy.Proofs.Rule.FileAccess

/-!
# The grammar of file rules

The text of an entry is read back as the entry, whichever of path and permissions comes first.  What
it starts with keeps it apart from the statements with a keyword.
-/

namespace ArmorPolicy

open Checked List Option Text Line FileAccess

variable {c : Char} {file : File} {letters word : List Char} {base : RuleBase} {comment : String}

namespace File

/-! ## Entries -/

def Entry.ownText (entry : Entry) : List Char :=
  (if entry.permissionsFirst then entry.letters ++ ' ' :: entry.path
    else entry.path ++ ' ' :: entry.letters) ++ targetText entry.target

def Entry.text (entry : Entry) : List Char :=
  if entry.fileWord then "file".toList ++ ' ' :: entry.ownText else entry.ownText

/-- The pieces of an entry are such that its text can be read again. -/
structure Entry.Readable (entry : Entry) : Prop where
  path : PathText entry.path
  access : ∃ access : FileAccess, access.text = entry.letters
  nonempty : entry.letters ≠ []
  target : ∀ word ∈ entry.target, TargetText word

/-- A word with which neither a path nor a permission string can start. -/
def Distinct (word : List Char) : Prop :=
  (∀ sign ∈ ['/', '@', '"'], word.head? ≠ some sign) ∧ (∀ c ∈ word, isSolid c = true) ∧
    ∃ c ∈ word, c ∉ FileAccess.alphabet

instance (word : List Char) : Decidable (Distinct word) :=
  inferInstanceAs (Decidable (_ ∧ _))

namespace Distinct

variable (distinct : Distinct word)
include distinct

theorem notStarts_sign (sign : c ∈ ['/', '@', '"']) (rest : List Char) : ¬word <+: c :: rest := by
  obtain ⟨heads, _, d, member, _⟩ := distinct
  rintro ⟨behind, split⟩
  cases word with
  | nil => cases member
  | cons e word =>
    obtain ⟨rfl, _⟩ := List.cons.inj split
    exact heads e sign rfl

theorem notStarts_letters (known : letters ⊆ alphabet) {stop : Char}
    (blank : isBlank stop) (rest : List Char) : ¬word <+: letters ++ stop :: rest := by
  obtain ⟨_, solid, c, member, foreign⟩ := distinct
  have noStop : stop ∉ word := by
    intro inWord
    have solidStop := solid stop inWord
    rw [isSolid, blank] at solidStop
    cases solidStop
  refine FileAccess.notStarts_letters known member ?_ noStop rest
  rw [mem_cons, not_or]
  refine ⟨?_, foreign⟩
  rintro rfl
  exact noStop member

end Distinct

/-- A word with which no file rule can start. -/
def Foreign (word : List Char) : Prop :=
  Distinct word ∧ Apart word "file".toList ∧ Apart word "owner".toList

instance (word : List Char) : Decidable (Foreign word) :=
  inferInstanceAs (Decidable (_ ∧ _))

theorem foreign_of_modifier {word : String} (modifier : word ∈ modifierWords) : Foreign word.toList := by
  have all : ∀ word ∈ modifierWords, Foreign word.toList := by decide
  exact all word modifier

theorem foreign_of_lead {kind : RuleKind} (other : kind ≠ .assignment) {word : String}
    (member : word ∈ kind.leads) : Foreign word.toList := by
  have all : ∀ kind ∈ RuleKind.all, kind ≠ .assignment → ∀ word ∈ kind.leads,
      Foreign word.toList := by decide +kernel
  exact all kind (RuleKind.mem_all kind) other word member

theorem lettersAt?_append {rest : List Char} {stop : Char} (nonempty : letters ≠ [])
    (all : ∀ c ∈ letters, isAsciiLetter c) (stops : isAsciiLetter stop = false) :
    lettersAt? (letters ++ stop :: rest) = some (letters, stop :: rest) := by
  obtain ⟨c, others, rfl⟩ := exists_cons_of_ne_nil nonempty
  simp only [lettersAt?, takeWhile_append_of_stop all stops, dropWhile_append_of_stop all stops]

theorem lettersAt?_eq_none (other : isAsciiLetter c = false) (rest : List Char) :
    lettersAt? (c :: rest) = none := by
  simp [lettersAt?, other]

theorem pathFirst?_of_letter (letter : isAsciiLetter c) (rest : List Char) :
    pathFirst? (c :: rest) = none := by
  refine not_isSome_iff_eq_none.mp fun readable => ?_
  obtain ⟨_, found⟩ := isSome_iff_exists.mp readable
  obtain ⟨⟨path, value⟩, isPath, _⟩ := map_eq_some_iff.mp found
  obtain ⟨d, tail, shape, sign⟩ := exists_sign_of_path? isPath
  have noLetter : ∀ sign ∈ ['/', '@', '"'], isAsciiLetter sign = false := by decide
  rw [(List.cons.inj shape).1, noLetter d sign] at letter
  cases letter

def eitherOrder? (fileWord : Bool) (s : List Char) : Option (Entry × String) :=
  ((pathFirst? s).map fun ((path, letters, target), comment) =>
      (⟨fileWord, false, path, letters, target⟩, comment)).or
    ((permissionsFirst? s).map fun ((path, letters, target), comment) =>
      (⟨fileWord, true, path, letters, target⟩, comment))

theorem pathWithAccess?_eq (s : List Char) : pathWithAccess? s =
    (optionalWord "file" s).findSome? fun (fileWord, s) => eitherOrder? fileWord s := rfl

theorem pathWithAccess?_of_absent {s : List Char} (absent : ¬"file".toList <+: s) :
    pathWithAccess? s = eitherOrder? false s := by
  rw [pathWithAccess?_eq, optionalWord_of_absent absent, findSome?_singleton]

theorem eitherOrder?_cases {fileWord : Bool} {s : List Char} {entry : Entry}
    (found : eitherOrder? fileWord s = some (entry, comment)) : ∃ path letters target,
      pathFirst? s = some ((path, letters, target), comment) ∧ entry = ⟨fileWord, false, path, letters, target⟩ ∨
      permissionsFirst? s = some ((path, letters, target), comment) ∧
        entry = ⟨fileWord, true, path, letters, target⟩ := by
  rcases or_eq_some_iff.mp found with first | ⟨_, second⟩
  · obtain ⟨⟨⟨path, letters, target⟩, _⟩, isEntry, ⟨⟩⟩ := map_eq_some_iff.mp first
    exact ⟨path, letters, target, .inl ⟨isEntry, rfl⟩⟩
  · obtain ⟨⟨⟨path, letters, target⟩, _⟩, isEntry, ⟨⟩⟩ := map_eq_some_iff.mp second
    exact ⟨path, letters, target, .inr ⟨isEntry, rfl⟩⟩

namespace Entry.Readable

variable {entry : Entry} (readable : entry.Readable)
include readable

theorem letter : ∀ c ∈ entry.letters, isAsciiLetter c := by
  obtain ⟨access, letters⟩ := readable.access
  rw [← letters]
  exact fun c member => isAsciiLetter_of_mem_text member

theorem startsSolid_letters : StartsSolid entry.letters := by
  obtain ⟨c, others, text⟩ := exists_cons_of_ne_nil readable.nonempty
  obtain ⟨access, letters⟩ := readable.access
  exact ⟨c, others, text, isSolid_of_mem_text (by rw [letters, text]; simp)⟩

variable (valid : TrailingComment comment)

theorem lettersAt?_letters (rest : List Char) :
    lettersAt? (entry.letters ++ targetText entry.target ++ ',' :: rest) =
      some (entry.letters, targetText entry.target ++ ',' :: rest) := by
  rw [append_assoc]
  cases entry.target with
  | none => exact lettersAt?_append readable.nonempty readable.letter (by decide)
  | some _ => exact lettersAt?_append readable.nonempty readable.letter (by decide)

include valid

theorem pathFirst?_ownText (order : entry.permissionsFirst = false) :
    pathFirst? (entry.ownText ++ ',' :: comment.toList) =
      some ((entry.path, entry.letters, entry.target), comment) := by
  have starts : StartsSolid (entry.letters ++ targetText entry.target ++ ',' :: comment.toList) :=
    (readable.startsSolid_letters.append _).append _
  have text : entry.ownText ++ ',' :: comment.toList =
      entry.path ++ ' ' :: (entry.letters ++ targetText entry.target ++ ',' :: comment.toList) := by
    simp [ownText, order]
  rw [text]
  refine map_eq_some_iff.mpr ⟨(entry.path, entry.letters, entry.target, comment),
    readable.path.path?_append ?_ ?_, rfl⟩
  · intro start suffix split nonempty solid
    obtain ⟨c, start, rfl⟩ := exists_cons_of_ne_nil nonempty
    obtain ⟨rfl, _⟩ := List.cons.inj split
    exact absurd (solid ' ' (by simp)) (by decide)
  · simp only [afterBlanks?_space starts, bind_some, readable.lettersAt?_letters,
      targetEnding?_append valid readable.target, map_some]

theorem permissionsFirst?_ownText (order : entry.permissionsFirst) :
    permissionsFirst? (entry.ownText ++ ',' :: comment.toList) =
      some ((entry.path, entry.letters, entry.target), comment) := by
  have text : entry.ownText ++ ',' :: comment.toList =
      entry.letters ++ ' ' :: (entry.path ++ (targetText entry.target ++ ',' :: comment.toList)) := by
    simp [ownText, order]
  have found := readable.path.path?_append (fun _ _ => targetEnding?_later valid)
    (targetEnding?_append valid readable.target)
  rw [text, permissionsFirst?, lettersAt?_append readable.nonempty readable.letter (by decide)]
  simp only [bind_some, afterBlanks?_space (readable.path.startsSolid.append _), found, map_some]

omit valid in
theorem pathFirst?_eq_none (order : entry.permissionsFirst) (rest : List Char) :
    pathFirst? (entry.ownText ++ rest) = none := by
  obtain ⟨first, others, text⟩ := exists_cons_of_ne_nil readable.nonempty
  have letter := readable.letter first (by simp [text])
  have start : entry.ownText ++ rest = first :: (others ++ ' ' :: entry.path ++ targetText entry.target ++ rest) := by
    simp [ownText, order, text]
  rw [start]
  exact pathFirst?_of_letter letter _

omit valid in
theorem startsSolid_ownText : StartsSolid entry.ownText := by
  unfold ownText
  cases entry.permissionsFirst with
  | true => exact (readable.startsSolid_letters.append _).append _
  | false => exact (readable.path.startsSolid.append _).append _

omit valid in
theorem notStarts_ownText (distinct : Distinct word) (rest : List Char) :
    ¬word <+: entry.ownText ++ rest := by
  cases order : entry.permissionsFirst with
  | true =>
    obtain ⟨access, letters⟩ := readable.access
    have known : entry.letters ⊆ alphabet := by
      rw [← letters]
      exact fun _ => mem_alphabet_of_mem_text
    have blank : isBlank ' ' := by decide
    have absent := distinct.notStarts_letters known blank (entry.path ++ targetText entry.target ++ rest)
    simpa [ownText, order] using absent
  | false =>
    obtain ⟨sign, path, text, among⟩ := readable.path.starts
    have absent := distinct.notStarts_sign among (path ++ ' ' :: entry.letters ++ targetText entry.target ++ rest)
    simpa [ownText, order, text] using absent

theorem eitherOrder?_ownText :
    eitherOrder? entry.fileWord (entry.ownText ++ ',' :: comment.toList) = some (entry, comment) := by
  cases order : entry.permissionsFirst with
  | false => simp [eitherOrder?, readable.pathFirst?_ownText valid order, ← order]
  | true =>
    simp [eitherOrder?, readable.pathFirst?_eq_none order, readable.permissionsFirst?_ownText valid order,
      ← order]

theorem pathWithAccess?_text : pathWithAccess? (entry.text ++ ',' :: comment.toList) =
    some (entry, comment) := by
  have own := readable.eitherOrder?_ownText valid
  cases word : entry.fileWord with
  | false =>
    rw [word] at own
    have absent : ¬"file".toList <+: entry.ownText ++ ',' :: comment.toList :=
      readable.notStarts_ownText (by decide) _
    have written : entry.text = entry.ownText := by simp [text, word]
    rw [written, pathWithAccess?_of_absent absent, own]
  | true =>
    rw [word] at own
    have written : entry.text = "file".toList ++ ' ' :: entry.ownText := by simp [text, word]
    rw [written, append_assoc, cons_append, pathWithAccess?_eq,
      optionalWord_of_word "file" (readable.startsSolid_ownText.append _)]
    simp only [findSome?_cons, own]

omit valid in
theorem startsSolid_text : StartsSolid entry.text := by
  unfold text
  cases entry.fileWord with
  | true => exact ⟨'f', _, rfl, by decide⟩
  | false => exact readable.startsSolid_ownText

omit valid in
theorem notStarts_text (distinct : Distinct word) (apart : Apart word "file".toList)
    (rest : List Char) : ¬word <+: entry.text ++ rest := by
  unfold text
  cases entry.fileWord with
  | true => exact apart.notStarts ((prefix_append _ _).trans (prefix_append _ _))
  | false => exact readable.notStarts_ownText distinct rest

omit valid in
theorem everything_eq_none (rest : List Char) : (after? "file" (entry.text ++ rest)).bind commaEnding? = none := by
  cases word : entry.fileWord with
  | false =>
    have absent : ¬"file".toList <+: entry.ownText ++ rest := readable.notStarts_ownText (by decide) _
    simp [text, word, after?_eq_none absent]
  | true =>
    have behind : commaEnding? (' ' :: (entry.ownText ++ rest)) = none := by
      obtain ⟨c, others, start, solid⟩ := readable.startsSolid_ownText.append rest
      have noComma : c ≠ ',' := by
        rintro rfl
        have absent : ¬[','] <+: entry.ownText ++ rest := readable.notStarts_ownText (by decide) _
        exact absent (by rw [start]; exact ⟨others, rfl⟩)
      rw [start, ← singleton_append, commaEnding?_blanks (by decide)]
      exact commaEnding?_of_solid solid noComma others
    have written : entry.text ++ rest = "file".toList ++ ' ' :: (entry.ownText ++ rest) := by
      simp [text, word]
    rw [written, after?_append, bind_some, behind]

end Entry.Readable

/-! ## Rules -/

def Parts.ownText (parts : Parts) : List Char :=
  match parts.entry with
  | none => "file".toList
  | some entry => entry.text

def Parts.text (parts : Parts) : List Char :=
  if parts.owner then "owner".toList ++ ' ' :: parts.ownText else parts.ownText

def Parts.Readable (parts : Parts) : Prop := ∀ entry ∈ parts.entry, entry.Readable

def readParts? (s : List Char) : Option (Parts × String) :=
  (optionalWord "owner" s).findSome? fun (owner, s) =>
    (((after? "file" s).bind commaEnding?).map fun comment => (⟨owner, none⟩, comment)).or
      ((pathWithAccess? s).map fun (entry, comment) => (⟨owner, some entry⟩, comment))

theorem read?_eq : read? = withModifiers readParts? := rfl

theorem readParts?_cases {s : List Char} {parts : Parts} (found : readParts? s = some (parts, comment)) :
    ∃ owner t, (owner, t) ∈ optionalWord "owner" s ∧
      ((∃ u, after? "file" t = some u ∧ commaEnding? u = some comment ∧ parts = ⟨owner, none⟩) ∨
        ∃ entry, (after? "file" t).bind commaEnding? = none ∧ pathWithAccess? t = some (entry, comment) ∧
          parts = ⟨owner, some entry⟩) := by
  obtain ⟨⟨owner, t⟩, member, success⟩ := exists_of_findSome?_eq_some found
  refine ⟨owner, t, member, ?_⟩
  rcases or_eq_some_iff.mp success with everything | ⟨notAll, single⟩
  · obtain ⟨_, worded, ⟨⟩⟩ := map_eq_some_iff.mp everything
    obtain ⟨u, read, ending⟩ := bind_eq_some_iff.mp worded
    exact .inl ⟨u, read, ending, rfl⟩
  · obtain ⟨⟨entry, _⟩, isEntry, ⟨⟩⟩ := map_eq_some_iff.mp single
    exact .inr ⟨entry, map_eq_none_iff.mp notAll, isEntry, rfl⟩

namespace Parts.Readable

variable {parts : Parts} (readable : parts.Readable)
include readable

theorem startsSolid_ownText : StartsSolid parts.ownText := by
  cases entry : parts.entry with
  | none => simpa [ownText, entry] using ⟨'f', _, rfl, by decide⟩
  | some found => simpa [ownText, entry] using (readable found entry).startsSolid_text

theorem startsSolid_text : StartsSolid parts.text := by
  unfold text
  cases parts.owner with
  | true => exact ⟨'o', _, rfl, by decide⟩
  | false => exact readable.startsSolid_ownText

theorem notStarts_ownText (distinct : Distinct word) (apart : Apart word "file".toList)
    (rest : List Char) : ¬word <+: parts.ownText ++ rest := by
  cases entry : parts.entry with
  | none => simpa [ownText, entry] using apart.notStarts (prefix_append "file".toList rest)
  | some found => simpa [ownText, entry] using (readable found entry).notStarts_text distinct apart rest

theorem notStarts_text (distinct : Distinct word) (apart : Apart word "file".toList)
    (apartOwner : Apart word "owner".toList) (rest : List Char) : ¬word <+: parts.text ++ rest := by
  unfold text
  cases parts.owner with
  | true => exact apartOwner.notStarts ((prefix_append _ _).trans (prefix_append _ _))
  | false => exact readable.notStarts_ownText distinct apart rest

theorem readParts?_text (valid : TrailingComment comment) :
    readParts? (parts.text ++ ',' :: comment.toList) = some (parts, comment) := by
  have own : (((after? "file" (parts.ownText ++ ',' :: comment.toList)).bind commaEnding?).map
        fun comment => ((⟨parts.owner, none⟩, comment) : Parts × String)).or
      ((pathWithAccess? (parts.ownText ++ ',' :: comment.toList)).map
        fun (entry, comment) => (⟨parts.owner, some entry⟩, comment)) = some (parts, comment) := by
    obtain ⟨owner, entry⟩ := parts
    cases entry with
    | none =>
      simp only [ownText, after?_append, bind_some, commaEnding?_of_trailingComment valid, map_some, some_or]
    | some entry =>
      have readableEntry := readable entry rfl
      simp only [ownText, readableEntry.everything_eq_none, readableEntry.pathWithAccess?_text valid,
        map_none, none_or, map_some]
  cases owner : parts.owner with
  | false =>
    rw [owner] at own
    have absent : ¬"owner".toList <+: parts.ownText ++ ',' :: comment.toList :=
      readable.notStarts_ownText (by decide) (by decide) _
    have written : parts.text = parts.ownText := by simp [text, owner]
    rw [written, readParts?, optionalWord_of_absent absent]
    simp only [findSome?_cons, own]
  | true =>
    rw [owner] at own
    have written : parts.text = "owner".toList ++ ' ' :: parts.ownText := by simp [text, owner]
    rw [written, append_assoc, cons_append, readParts?,
      optionalWord_of_word "owner" (readable.startsSolid_ownText.append _)]
    simp only [findSome?_cons, own]

theorem unmodified (rest : List Char) : Unmodified (parts.text ++ rest) := by
  intro word modifier
  obtain ⟨distinct, apart, apartOwner⟩ := foreign_of_modifier modifier
  exact readable.notStarts_text distinct apart apartOwner rest

/-- No statement with a keyword is read from the text of a file rule, unless it starts with a
variable. -/
theorem readAs?_eq_none {kind : RuleKind} (keyword : kind ≠ .file) (other : kind ≠ .assignment)
    (base : RuleBase) (rest : List Char) :
    Rule.readAs? kind (base.modifiers.toList ++ (parts.text ++ rest)) = none := by
  refine Rule.readAs?_eq_none keyword base (readable.startsSolid_text.append rest)
    (readable.unmodified rest) ?_
  intro word lead
  obtain ⟨distinct, apart, apartOwner⟩ := foreign_of_lead other lead
  exact readable.notStarts_text distinct apart apartOwner rest

theorem read?_text (base : RuleBase) (valid : TrailingComment comment) :
    read? (base.modifiers.toList ++ (parts.text ++ ',' :: comment.toList)) =
      some ⟨base.audit, base.decision, comment, parts⟩ := by
  rw [read?_eq]
  exact withModifiers_modifiers base (readable.startsSolid_text.append _) (readable.unmodified _)
    (readable.readParts?_text valid)

end Parts.Readable

theorem ofParts_entry_eq_ok_iff {owner : Bool} {entry : Entry} :
    ofParts base ⟨owner, some entry⟩ = .ok file ↔
      ∃ pattern access target,
        Pattern.ofText (String.ofList (stripQuotes entry.path)) true = .ok pattern ∧
        read entry.letters base.deny = .ok access ∧ targetOf entry.target = .ok target ∧
        Sensible base.deny access target ∧
        file = { path := .only pattern, permissions := .only access.permissions, exec := access.exec
                 target, owner, fileWord := entry.fileWord
                 permissionsFirst := entry.permissionsFirst } := by
  constructor
  · intro made
    obtain ⟨pattern, isPattern, made⟩ := bind_eq_ok.mp made
    obtain ⟨access, isAccess, made⟩ := bind_eq_ok.mp made
    obtain ⟨target, isTarget, made⟩ := bind_eq_ok.mp made
    obtain ⟨plain, isFile, made⟩ := bind_eq_ok.mp made
    obtain ⟨sensible, rfl⟩ := ofAccess_eq_ok_iff.mp isFile
    cases made
    exact ⟨pattern, access, target, isPattern, isAccess, isTarget, sensible, rfl⟩
  · rintro ⟨pattern, access, target, isPattern, isAccess, isTarget, sensible, rfl⟩
    refine bind_eq_ok.mpr ⟨pattern, isPattern, ?_⟩
    refine bind_eq_ok.mpr ⟨access, isAccess, ?_⟩
    refine bind_eq_ok.mpr ⟨target, isTarget, ?_⟩
    exact bind_eq_ok.mpr ⟨_, ofAccess_eq_ok_iff.mpr ⟨sensible, rfl⟩, rfl⟩

/-! ## What rules are read from -/

theorem letters_subset_alphabet {parts : Parts} (made : ofParts base parts = .ok file) :
    ∀ entry ∈ parts.entry, entry.letters ⊆ alphabet := by
  obtain ⟨owner, entry⟩ := parts
  rintro entry ⟨⟩
  obtain ⟨_, access, _, _, isAccess, _⟩ := ofParts_entry_eq_ok_iff.mp made
  exact subset_alphabet_of_read isAccess

theorem lettersAt?_eq_some {s rest : List Char} (found : lettersAt? s = some (letters, rest)) :
    s = letters ++ rest ∧ letters ≠ [] ∧ (∀ c ∈ letters, isAsciiLetter c) ∧
      ∀ c ∈ rest.head?, isAsciiLetter c = false := by
  unfold lettersAt? at found
  split at found
  · cases found
  next nonempty =>
    cases found
    refine ⟨takeWhile_append_dropWhile.symm, nonempty, ?_, ?_⟩
    · exact all_eq_true.mp all_takeWhile
    · intro c first
      have stops := head?_dropWhile_not isAsciiLetter s
      rw [mem_def.mp first] at stops
      exact stops

section Readings

variable {s : List Char} (distinct : Distinct word)
include distinct

theorem notStarts_of_pathFirst? {entry : List Char × List Char × Option (List Char)}
    (found : pathFirst? s = some (entry, comment)) : ¬word <+: s := by
  obtain ⟨⟨path, value⟩, isPath, _⟩ := map_eq_some_iff.mp found
  obtain ⟨c, rest, rfl, sign⟩ := exists_sign_of_path? isPath
  exact distinct.notStarts_sign sign rest

theorem notStarts_of_permissionsFirst? {path : List Char} {target : Option (List Char)}
    (found : permissionsFirst? s = some ((path, letters, target), comment))
    (known : letters ⊆ alphabet) : ¬word <+: s := by
  obtain ⟨⟨found, t⟩, lettered, further⟩ := bind_eq_some_iff.mp found
  obtain ⟨_, isPath, ⟨⟩⟩ := map_eq_some_iff.mp further
  obtain ⟨rfl, _⟩ := lettersAt?_eq_some lettered
  obtain ⟨_, blanks, _⟩ := bind_eq_some_iff.mp isPath
  obtain ⟨stop, rest, rfl, blank⟩ := exists_blank_of_afterBlanks? blanks
  exact distinct.notStarts_letters known blank rest

theorem notStarts_of_eitherOrder? {fileWord : Bool} {entry : Entry}
    (found : eitherOrder? fileWord s = some (entry, comment))
    (known : entry.letters ⊆ alphabet) : ¬word <+: s := by
  obtain ⟨_, _, _, ⟨isEntry, rfl⟩ | ⟨isEntry, rfl⟩⟩ := eitherOrder?_cases found
  · exact notStarts_of_pathFirst? distinct isEntry
  · exact notStarts_of_permissionsFirst? distinct isEntry known

theorem notStarts_of_pathWithAccess? {entry : Entry} (apart : Apart word "file".toList)
    (found : pathWithAccess? s = some (entry, comment)) (known : entry.letters ⊆ alphabet) :
    ¬word <+: s := by
  rw [pathWithAccess?_eq] at found
  obtain ⟨⟨fileWord, t⟩, member, success⟩ := exists_of_findSome?_eq_some found
  rcases mem_optionalWord_iff.mp member with ⟨_, rfl⟩ | ⟨_, worded⟩
  · exact notStarts_of_eitherOrder? distinct success known
  · exact apart.notStarts (prefix_of_afterWord? worded)

end Readings

theorem notStarts_of_readParts? {s : List Char} {parts : Parts} (foreign : Foreign word)
    (found : readParts? s = some (parts, comment))
    (known : ∀ entry ∈ parts.entry, entry.letters ⊆ alphabet) : ¬word <+: s := by
  obtain ⟨distinct, apart, apartOwner⟩ := foreign
  obtain ⟨owner, t, member, reading⟩ := readParts?_cases found
  rcases mem_optionalWord_iff.mp member with ⟨_, rfl⟩ | ⟨_, worded⟩
  · rcases reading with ⟨_, read, _⟩ | ⟨entry, _, isEntry, rfl⟩
    · exact apart.notStarts (prefix_of_after? read)
    · exact notStarts_of_pathWithAccess? distinct apart isEntry (known entry rfl)
  · exact apartOwner.notStarts (prefix_of_afterWord? worded)

theorem exists_behind_of_read? {line : List Char} {statement : Statement Parts}
    (found : read? line = some statement) (made : ofParts base statement.parts = .ok file) :
    ∃ s, Behind line statement.audit statement.decision s ∧
      readParts? s = some (statement.parts, statement.comment) :=
  exists_behind found fun _ readable _ modifier =>
    notStarts_of_readParts? (foreign_of_modifier modifier) readable (letters_subset_alphabet made)

end File

end ArmorPolicy
