import ArmorPolicy.Proofs.Glob.Literal
import ArmorPolicy.Proofs.Line.Quotation
import ArmorPolicy.Proofs.Rule.File

/-!
# Rules for logged events, written out

The rule for a logged event names one literal path.  Its line is read back as a rule for the same
path and the same access exactly where the path can be spelled: without quotation marks if it has a
space, and without any other blank if it has none.
-/

namespace ArmorPolicy

open List Text Line Glob

variable {owner : Bool} {c : Char} {access : FileAccess} {path s : List Char}

namespace File

/-- A path whose written form is read back whole.  Only a space puts it between quotation marks, and
nothing keeps a mark within them from ending it. -/
def Spellable (path : List Char) : Prop :=
  if ' ' ∈ path then '"' ∉ path else ∀ c ∈ path, isSolid c = true

instance (path : List Char) : Decidable (Spellable path) :=
  inferInstanceAs (Decidable (if ' ' ∈ path then '"' ∉ path else ∀ c ∈ path, isSolid c = true))

def granting (path : Pattern) (access : FileAccess) (owner : Bool) : File :=
  { path := .only path, permissions := .only access.permissions, exec := access.exec, target := .all
    owner }

def loggedEntry (path : List Char) (access : FileAccess) : Entry where
  fileWord := false
  permissionsFirst := false
  path := (quoteIfNeeded (String.ofList (Glob.escape path))).toList
  letters := access.text
  target := none

def loggedParts (path : List Char) (access : FileAccess) (owner : Bool) : Parts :=
  ⟨owner, some (loggedEntry path access)⟩

theorem ofLogEvent_eq_ok {path letters : String} {file : File}
    (made : ofLogEvent path letters owner = .ok file) :
    ∃ access, Sensible false access .all ∧
      file = granting ⟨String.ofList (escape path.toList), some path⟩ access owner := by
  obtain ⟨access, _, made⟩ := Checked.bind_eq_ok.mp made
  obtain ⟨pattern, literal, made⟩ := Checked.bind_eq_ok.mp made
  obtain ⟨sensible, rfl⟩ := ofAccess_eq_ok_iff.mp made
  rw [Pattern.ofLogEvent_eq_ok literal]
  exact ⟨access, sensible, rfl⟩

theorem clean_logged (path : String) (access : FileAccess) (owner : Bool) :
    (Rule.clean ⟨{ origin := .logEvent }, .file
        (granting ⟨String.ofList (escape path.toList), some path⟩ access owner)⟩ 0) =
      String.ofList ((loggedParts path.toList access owner).text ++ [',']) := by
  apply String.toList_injective
  cases owner <;>
    simp [Rule.clean, indent, Rule.canonical, Rule.kind, RuleBody.kind, RuleKind.showsModifiers,
      RuleBase.modifiers, RuleBase.decision, Decision.word, RuleBody.text, granting, text, accessText, RuleKind.terminator,
      Parts.text, Parts.ownText, Entry.text, Entry.ownText, loggedParts, loggedEntry, targetText, Extent.text,
      Extent.value?, FileAccess.text]

/-! ## Paths that can be spelled -/

theorem solid_escape_iff : (∀ c ∈ escape path, isSolid c) ↔ ∀ c ∈ path, isSolid c := by
  constructor
  · intro solid c member
    by_cases sign : c = '\\'
    · rw [sign]
      decide
    · exact solid c ((mem_escape_iff sign).mpr member)
  · intro solid c member
    by_cases sign : c = '\\'
    · rw [sign]
      decide
    · exact solid c ((mem_escape_iff sign).mp member)

theorem needsEscape_of_blank (blank : isSolid c = false) : needsEscape c = false := by
  cases needs : needsEscape c with
  | false => rfl
  | true =>
    simp only [needsEscape, Bool.or_eq_true, beq_iff_eq, or_assoc] at needs
    rcases needs with rfl | rfl | rfl | rfl | rfl | rfl | rfl | rfl | rfl | rfl | rfl | rfl <;>
      cases blank

theorem exists_first_blank (blank : ¬∀ c ∈ s, isSolid c) :
    ∃ part c others, s = part ++ c :: others ∧ (∀ d ∈ part, isSolid d) ∧ isSolid c = false := by
  induction s with
  | nil => exact absurd (by simp) blank
  | cons d s ih =>
    cases solidity : isSolid d with
    | false => exact ⟨[], d, s, rfl, by simp, solidity⟩
    | true =>
      obtain ⟨part, c, others, rfl, solid, stops⟩ := ih (by simpa [solidity] using blank)
      exact ⟨d :: part, c, others, rfl, by simpa [solidity] using solid, stops⟩

theorem quoted_escape (space : ' ' ∈ path) :
    (quoteIfNeeded (String.ofList (escape path))).toList = '"' :: escape path ++ ['"'] := by
  rw [toList_quoteIfNeeded_of_space (by simpa [mem_escape_iff] using space), String.toList_ofList]

theorem unquoted_escape (noSpace : ' ' ∉ path) :
    (quoteIfNeeded (String.ofList (escape path))).toList = escape path := by
  rw [quoteIfNeeded_of_noSpace (by simpa [mem_escape_iff] using noSpace), String.toList_ofList]

theorem escape_slash (rest : List Char) : escape ('/' :: rest) = '/' :: escape rest := by
  simp [escape, needsEscape]

section Lines

variable {rest : List Char}

theorem loggedPath_starts (access : FileAccess) :
    ∃ c others, (loggedEntry ('/' :: rest) access).path = c :: others ∧ c ∈ ['/', '"'] := by
  by_cases space : ' ' ∈ '/' :: rest
  · exact ⟨'"', escape ('/' :: rest) ++ ['"'], by rw [loggedEntry, quoted_escape space]; rfl, by simp⟩
  · exact ⟨'/', escape rest, by rw [loggedEntry, unquoted_escape space, escape_slash], by simp⟩

theorem loggedParts_text (access : FileAccess) (owner : Bool) :
    (loggedParts ('/' :: rest) access owner).text =
      let entry := (loggedEntry ('/' :: rest) access).path ++ ' ' :: access.text
      if owner then "owner".toList ++ ' ' :: entry else entry := by
  cases owner <;>
    simp [loggedParts, Parts.text, Parts.ownText, Entry.text, Entry.ownText, loggedEntry, targetText]

theorem loggedText_starts (access : FileAccess) (owner : Bool) :
    ∃ c others, (loggedParts ('/' :: rest) access owner).text = c :: others ∧ c ∈ ['/', '"', 'o'] := by
  cases owner with
  | true => exact ⟨'o', _, rfl, by simp⟩
  | false =>
    obtain ⟨c, others, text, among⟩ := loggedPath_starts access
    refine ⟨c, others ++ ' ' :: access.text, ?_, mem_append_left ['o'] among⟩
    rw [loggedParts_text, text]
    rfl

theorem notStarts_logged (access : FileAccess) (owner : Bool) (behind : List Char) {word : List Char}
    (differs : ∃ d ∈ word.head?, d ∉ ['/', '"', 'o']) :
    ¬word <+: (loggedParts ('/' :: rest) access owner).text ++ behind := by
  obtain ⟨c, others, text, among⟩ := loggedText_starts access owner
  obtain ⟨d, first, other⟩ := differs
  rw [text]
  refine notStarts_of_head ⟨d, first, ?_⟩
  rintro rfl
  exact other among

theorem readable_loggedEntry (spellable : Spellable ('/' :: rest)) (nonempty : access.text ≠ []) :
    (loggedEntry ('/' :: rest) access).Readable := by
  refine ⟨?_, ⟨access, rfl⟩, nonempty, by rintro _ ⟨⟩⟩
  unfold Spellable at spellable
  split at spellable
  next space =>
    have noMark : '"' ∉ escape rest := by
      rw [mem_escape_iff (by decide)]
      exact fun mark => spellable (mem_cons_of_mem _ mark)
    change PathText (quoteIfNeeded _).toList
    rw [quoted_escape space, escape_slash]
    exact .quoted noMark
  next noSpace =>
    have solid : ∀ c ∈ escape rest, isSolid c :=
      solid_escape_iff.mpr fun c member => spellable c (mem_cons_of_mem _ member)
    change PathText (quoteIfNeeded _).toList
    rw [unquoted_escape noSpace, escape_slash]
    exact .plain solid

theorem stripQuotes_loggedEntry (access : FileAccess) :
    stripQuotes (loggedEntry ('/' :: rest) access).path = escape ('/' :: rest) := by
  have starts : LineForm.startsPath (String.ofList (escape ('/' :: rest))).toList := by
    rw [String.toList_ofList, escape_slash]
    rfl
  exact (LineForm.stripQuotes_of_startsPath starts).trans String.toList_ofList

theorem ofParts_logged {base : RuleBase} (allows : base.deny = false)
    (sensible : Sensible false access .all) (owner : Bool) :
    ofParts base (loggedParts ('/' :: rest) access owner) =
      .ok (granting ⟨String.ofList (escape ('/' :: rest)), none⟩ access owner) := by
  rw [← allows] at sensible
  refine ofParts_entry_eq_ok_iff.mpr ⟨⟨String.ofList (escape ('/' :: rest)), none⟩, access, .all,
    ?_, FileAccess.read_text sensible.exclusive sensible.fits, rfl, sensible, rfl⟩
  rw [stripQuotes_loggedEntry]
  simp [Pattern.ofText, escape_slash]

theorem parse?_logged (sensible : Sensible false access .all) (owner : Bool)
    (spellable : Spellable ('/' :: rest)) :
    ∃ base, Rule.parse? (String.ofList ((loggedParts ('/' :: rest) access owner).text ++ [','])) =
      some (.ok ⟨base, .file (granting ⟨String.ofList (escape ('/' :: rest)), none⟩ access owner)⟩) := by
  have readable : (loggedParts ('/' :: rest) access owner).Readable := by
    rintro _ ⟨⟩
    exact readable_loggedEntry spellable (FileAccess.text_ne_nil sensible.nonempty)
  have noAssignment : Rule.readAs? .assignment
      ((loggedParts ('/' :: rest) access owner).text ++ [',']) = none := by
    refine Rule.readAs?_eq_none (by decide) {} (readable.startsSolid_text.append _) (readable.unmodified _) ?_
    intro word lead
    rw [mem_singleton.mp lead]
    exact notStarts_logged access owner [','] (by decide)
  have found : read? ((loggedParts ('/' :: rest) access owner).text ++ [',']) =
      some ⟨false, .unstated, "", loggedParts ('/' :: rest) access owner⟩ :=
    readable.read?_text {} (.inl rfl)
  have fileRead : ∃ base, Rule.readAs? .file ((loggedParts ('/' :: rest) access owner).text ++ [',']) =
      some (.ok ⟨base, .file (granting ⟨String.ofList (escape ('/' :: rest)), none⟩ access owner)⟩) := by
    refine ⟨Statement.base ⟨false, .unstated, "", loggedParts ('/' :: rest) access owner⟩
      ((loggedParts ('/' :: rest) access owner).text ++ [',']), ?_⟩
    simp only [Rule.readAs?, Rule.readBy, found, Option.map_some]
    rw [ofParts_logged rfl sensible]
    rfl
  obtain ⟨base, fileRead⟩ := fileRead
  refine ⟨base, Rule.parse?_of_readAs? fileRead ?_⟩
  intro other differs _
  by_cases assignment : other = .assignment
  · rw [assignment]
    exact noAssignment
  · exact readable.readAs?_eq_none differs assignment {} [',']

end Lines

/-! ## What is read from other lines -/

section Readings

variable {letters : List Char} {target : Option (List Char)} {comment : String}

theorem path_of_pathFirst?_slash (found : pathFirst? ('/' :: s) = some ((path, letters, target), comment)) :
    path = ('/' :: s).takeWhile isSolid := by
  obtain ⟨⟨path, letters, target, comment⟩, readable, ⟨⟩⟩ := Option.map_eq_some_iff.mp found
  obtain ⟨⟨part, _⟩, further, ⟨⟩⟩ := Option.map_eq_some_iff.mp readable
  obtain ⟨rest, rfl, solid, permissions, _⟩ := longest?_eq_some further
  have slash : isSolid '/' := by decide
  cases rest with
  | nil => cases permissions
  | cons c rest =>
    have blank : isSolid c = false := by
      cases solidity : isSolid c with
      | false => rfl
      | true =>
        have none := afterBlanks?_of_startsSolid ⟨c, rest, rfl, solidity⟩
        simp [none] at permissions
    have whole : ∀ d ∈ '/' :: part, isSolid d := by simpa [slash] using solid
    exact (takeWhile_append_of_stop whole blank).symm

theorem path_of_pathFirst?_quote
    (found : pathFirst? ('"' :: '/' :: s) = some ((path, letters, target), comment)) :
    ∃ inner rest, s = inner ++ '"' :: rest ∧ '"' ∉ inner ∧ path = '"' :: ('/' :: inner) ++ ['"'] := by
  obtain ⟨⟨path, letters, target, comment⟩, readable, ⟨⟩⟩ := Option.map_eq_some_iff.mp found
  obtain ⟨⟨part, _⟩, further, ⟨⟩⟩ := Option.map_eq_some_iff.mp readable
  obtain ⟨⟨inner, rest⟩, upToMark, further⟩ := Option.bind_eq_some_iff.mp further
  obtain ⟨_, _, ⟨⟩⟩ := Option.map_eq_some_iff.mp further
  obtain ⟨rfl, noMark⟩ := upTo?_eq_some_iff.mp upToMark
  exact ⟨inner, rest, rfl, noMark, rfl⟩

theorem read_owner_eq_error (deny : Bool) (access : FileAccess) :
    FileAccess.read "owner".toList deny ≠ .ok access := by
  have noLetter : FilePermission.ofLetter? 'o' = none := by decide
  have noMode : ExecMode.readAt? ['o', 'w', 'n', 'e', 'r'] = none := by decide
  intro success
  change FileAccess.readFrom deny {} ['o', 'w', 'n', 'e', 'r'] = _ at success
  rw [FileAccess.readFrom, noLetter] at success
  simp only [show ¬ 'o' = 'x' by decide, if_false] at success
  split at success
  next found =>
    rw [noMode] at found
    cases found
  · cases success

theorem notStarts_of_sign {word : List Char} (sign : c ∈ ['/', '"'])
    (differs : ∃ d ∈ word.head?, d ∉ ['/', '"']) : ¬word <+: c :: s := by
  obtain ⟨d, first, other⟩ := differs
  refine notStarts_of_head ⟨d, first, ?_⟩
  rintro rfl
  exact other sign

theorem pathFirst?_of_pathWithAccess? {entry : Entry} (sign : c ∈ ['/', '"'])
    (found : pathWithAccess? (c :: s) = some (entry, comment)) :
    pathFirst? (c :: s) = some ((entry.path, entry.letters, entry.target), comment) := by
  have noLetter : lettersAt? (c :: s) = none := by
    have all : ∀ c ∈ ['/', '"'], isAsciiLetter c = false := by decide
    exact lettersAt?_eq_none (all c sign) s
  have noWord : ¬"file".toList <+: c :: s := notStarts_of_sign sign (by decide)
  rw [pathWithAccess?_of_absent noWord, eitherOrder?, permissionsFirst?,
    noLetter, Option.bind_none, Option.map_none, Option.or_none] at found
  obtain ⟨_, reading, ⟨⟩⟩ := Option.map_eq_some_iff.mp found
  exact reading

theorem letters_of_owner {entry : Entry}
    (found : pathWithAccess? ("owner".toList ++ ' ' :: s) = some (entry, comment)) :
    entry.letters = "owner".toList := by
  have noWord : ¬"file".toList <+: "owner".toList ++ ' ' :: s := notStarts_of_head ⟨'f', rfl, by decide⟩
  have noPath : pathFirst? ("owner".toList ++ ' ' :: s) = none := rfl
  have letters : lettersAt? ("owner".toList ++ ' ' :: s) = some ("owner".toList, ' ' :: s) :=
    lettersAt?_append (by decide) (by decide) (by decide)
  rw [pathWithAccess?_of_absent noWord, eitherOrder?, noPath,
    Option.map_none, Option.none_or, permissionsFirst?, letters, Option.bind_some, Option.map_map] at found
  obtain ⟨_, _, ⟨⟩⟩ := Option.map_eq_some_iff.mp found
  rfl

theorem readParts?_of_sign (sign : c ∈ ['/', '"']) {parts : Parts}
    (found : readParts? (if owner then "owner".toList ++ ' ' :: c :: s else c :: s) = some (parts, comment)) :
    ∃ entry, parts.entry = some entry ∧ (entry.letters = "owner".toList ∨
      pathFirst? (c :: s) = some ((entry.path, entry.letters, entry.target), comment)) := by
  obtain ⟨⟨read, t⟩, choice, success⟩ := exists_of_findSome?_eq_some found
  have cases : t = c :: s ∨ t = "owner".toList ++ ' ' :: c :: s := by
    cases owner with
    | false =>
      have absent : ¬"owner".toList <+: c :: s := notStarts_of_sign sign (by decide)
      simp only [Bool.false_eq_true, if_false, optionalWord_of_absent absent, mem_singleton,
        Prod.mk.injEq] at choice
      exact .inl choice.2
    | true =>
      have solid : ∀ c ∈ ['/', '"'], isSolid c := by decide
      simp only [if_true, optionalWord_of_word "owner" ⟨c, s, rfl, solid c sign⟩, mem_cons,
        Prod.mk.injEq, not_mem_nil, or_false] at choice
      exact choice.imp And.right And.right
  have noFile : ¬"file".toList <+: t := by
    rcases cases with rfl | rfl
    · exact notStarts_of_sign sign (by decide)
    · exact notStarts_of_head ⟨'f', rfl, by decide⟩
  simp only [after?_eq_none noFile, Option.bind_none, Option.map_none, Option.none_or] at success
  obtain ⟨⟨entry, comment⟩, reading, ⟨⟩⟩ := Option.map_eq_some_iff.mp success
  refine ⟨entry, rfl, ?_⟩
  rcases cases with rfl | rfl
  · exact .inr (pathFirst?_of_pathWithAccess? sign reading)
  · exact .inl (letters_of_owner reading)

end Readings

/-! ## Paths that cannot be spelled -/

section Unspelled

variable {rest : List Char} {letters : List Char} {target : Option (List Char)} {comment : String}

theorem stripQuotes_of_mark {written : List Char} (space : ' ' ∈ '/' :: rest) (mark : '"' ∈ '/' :: rest)
    (found : pathFirst? ((loggedEntry ('/' :: rest) access).path ++ ' ' :: access.text ++ [',']) =
      some ((written, letters, target), comment)) :
    ∃ part others, '/' :: rest = part ++ '"' :: others ∧ stripQuotes written = escape part ++ ['\\'] := by
  have inRest : '"' ∈ rest := by simpa using mark
  obtain ⟨part, others, rfl, absent⟩ := eq_append_cons_of_mem inRest
  refine ⟨'/' :: part, others, rfl, ?_⟩
  have glob : escape (part ++ '"' :: others) =
      (escape part ++ ['\\']) ++ '"' :: escape others := by
    simp [escape_append, escape, needsEscape]
  have text : (loggedEntry ('/' :: (part ++ '"' :: others)) access).path ++ ' ' :: access.text ++ [','] =
      '"' :: '/' :: ((escape part ++ ['\\']) ++ '"' ::
        (escape others ++ '"' :: ' ' :: (access.text ++ [',']))) := by
    rw [loggedEntry, quoted_escape space, escape_slash, glob]
    simp
  rw [text] at found
  obtain ⟨inner, behind, split, noMark, rfl⟩ := path_of_pathFirst?_quote found
  have noMarkBefore : '"' ∉ escape part ++ ['\\'] := by
    simp [mem_escape_iff, absent]
  have first := upTo?_append noMarkBefore (escape others ++ '"' :: ' ' :: (access.text ++ [',']))
  rw [split, upTo?_append noMark] at first
  cases first
  rw [stripQuotes_quoted, escape_slash]
  rfl

theorem stripQuotes_of_blank {written : List Char} (noSpace : ' ' ∉ '/' :: rest)
    (blank : ¬∀ c ∈ '/' :: rest, isSolid c)
    (found : pathFirst? ((loggedEntry ('/' :: rest) access).path ++ ' ' :: access.text ++ [',']) =
      some ((written, letters, target), comment)) :
    ∃ part c others, '/' :: rest = part ++ c :: others ∧ stripQuotes written = escape part := by
  have slash : isSolid '/' := by decide
  have inRest : ¬∀ c ∈ rest, isSolid c := by simpa [slash] using blank
  obtain ⟨part, c, others, rfl, solid, stops⟩ := exists_first_blank inRest
  refine ⟨'/' :: part, c, others, rfl, ?_⟩
  have text : (loggedEntry ('/' :: (part ++ c :: others)) access).path ++ ' ' :: access.text ++ [','] =
      '/' :: (escape part ++ c :: (escape others ++ ' ' :: (access.text ++ [',']))) := by
    rw [loggedEntry, unquoted_escape noSpace, escape_slash]
    simp [escape_append, escape, needsEscape_of_blank stops]
  rw [text] at found
  have whole : ∀ d ∈ '/' :: escape part, isSolid d := by
    simpa [slash] using solid_escape_iff.mpr solid
  rw [path_of_pathFirst?_slash found, ← cons_append, takeWhile_append_of_stop whole stops,
    stripQuotes_of_head (by decide), escape_slash]

end Unspelled

theorem entry_of_read?_logged {rest : List Char} {statement : Statement Parts}
    (found : read? ((loggedParts ('/' :: rest) access owner).text ++ [',']) = some statement) :
    ∃ entry, statement.parts.entry = some entry ∧ (entry.letters = "owner".toList ∨
      pathFirst? ((loggedEntry ('/' :: rest) access).path ++ ' ' :: access.text ++ [',']) =
        some ((entry.path, entry.letters, entry.target), statement.comment)) := by
  obtain ⟨c, others, start, sign⟩ := @loggedPath_starts rest access
  have text : (loggedParts ('/' :: rest) access owner).text ++ [','] =
      if owner then "owner".toList ++ ' ' :: c :: (others ++ ' ' :: access.text ++ [','])
      else c :: (others ++ ' ' :: access.text ++ [',']) := by
    rw [loggedParts_text, start]
    cases owner <;> simp
  have starts : StartsSolid ((loggedParts ('/' :: rest) access owner).text ++ [',']) := by
    obtain ⟨first, tail, shape, among⟩ := @loggedText_starts rest access owner
    have solid : ∀ c ∈ ['/', '"', 'o'], isSolid c := by decide
    rw [shape]
    exact ⟨first, tail ++ [','], rfl, solid first among⟩
  have unmodified : Unmodified ((loggedParts ('/' :: rest) access owner).text ++ [',']) := by
    have all : ∀ word ∈ modifierWords, ∃ d ∈ word.toList.head?, d ∉ ['/', '"', 'o'] := by decide
    exact fun word modifier => notStarts_logged access owner [','] (all word modifier)
  rw [read?_eq, withModifiers_of_unmodified starts unmodified, text] at found
  obtain ⟨⟨parts, comment⟩, reading, rfl⟩ := Option.map_eq_some_iff.mp found
  rw [start]
  exact readParts?_of_sign sign reading

theorem spellable_of_parse? {rest : List Char} {again : Rule} {reread : File} {pattern : Pattern}
    (success : Rule.parse? (String.ofList ((loggedParts ('/' :: rest) access owner).text ++ [','])) =
      some (.ok again)) (body : again.body = .file reread) (path : reread.path = .only pattern)
    (literal : ∀ text, pattern.isMatch text ↔ text = String.ofList ('/' :: rest)) :
    Spellable ('/' :: rest) := by
  obtain ⟨kind, readAs⟩ := Rule.readAs?_of_parse? success
  rw [String.toList_ofList] at readAs
  obtain rfl : kind = .file := by
    rw [← Rule.kind_of_readAs? readAs, Rule.kind, body]
    rfl
  simp only [Rule.readAs?] at readAs
  obtain ⟨statement, reading, base, made⟩ := Rule.readBy_eq_ok readAs
  obtain ⟨file, made, shape⟩ := Checked.map_eq_ok.mp made
  rw [body] at shape
  cases shape
  obtain ⟨entry, isEntry, further⟩ := entry_of_read?_logged reading
  have parts : statement.parts = ⟨statement.parts.owner, some entry⟩ := by
    rw [← isEntry]
  rw [parts] at made
  obtain ⟨pattern', access', _, isPattern, isAccess, _, _, rfl⟩ := ofParts_entry_eq_ok_iff.mp made
  cases path
  have glob := Pattern.ofText_eq_ok isPattern
  rcases further with letters | found
  · rw [letters] at isAccess
    exact absurd isAccess (read_owner_eq_error _ _)
  · unfold Spellable
    split
    next space =>
      intro mark
      obtain ⟨part, others, split, cut⟩ := stripQuotes_of_mark space mark found
      have matched := (literal (String.ofList (part ++ ['\\']))).mp (by
        rw [glob, Pattern.isMatch_iff_means, cut]
        simp only [String.toList_ofList, ofText_escape_backslash]
        exact (means_escape_iff _ _).mpr rfl)
      have same := String.ofList_injective matched
      rw [split, append_cancel_left_eq] at same
      cases same
    next noSpace =>
      refine Decidable.byContradiction fun blank => ?_
      obtain ⟨part, c, others, split, cut⟩ := stripQuotes_of_blank noSpace blank found
      have matched := (literal (String.ofList part)).mp (by
        rw [glob, Pattern.isMatch_iff_means, cut]
        simp only [String.toList_ofList]
        exact (means_escape_iff _ _).mpr rfl)
      have same := congrArg List.length (String.ofList_injective matched)
      rw [split, length_append, length_cons] at same
      omega

/-! ## Main result -/

/-- A line that is read as a file rule with the access of `file`, for the path `path` and no other. -/
def SaysSame (line : String) (file : File) (path : String) : Prop :=
  ∃ base reread pattern, Rule.parse? line = some (.ok ⟨base, .file reread⟩) ∧
    reread.permissions = file.permissions ∧ reread.exec = file.exec ∧ reread.owner = file.owner ∧
    reread.path = .only pattern ∧ ∀ text, pattern.isMatch text = true ↔ text = path

/-- The line of a rule for a logged event says the same exactly where the path can be spelled. -/
theorem saysSame_logged_iff {path letters : String} {owner : Bool} {file : File}
    (absolute : path.toList.head? = some '/') (made : ofLogEvent path letters owner = .ok file) :
    SaysSame (Rule.clean ⟨{ origin := .logEvent }, .file file⟩ 0) file path ↔ Spellable path.toList := by
  obtain ⟨access, sensible, rfl⟩ := ofLogEvent_eq_ok made
  obtain ⟨rest, text⟩ := head?_eq_some_iff.mp absolute
  have whole : path = String.ofList ('/' :: rest) := by rw [← text, String.ofList_toList]
  rw [clean_logged, text]
  constructor
  · rintro ⟨base, reread, pattern, success, _, _, _, isPath, literal⟩
    rw [whole] at literal
    exact spellable_of_parse? success rfl isPath literal
  · intro spellable
    obtain ⟨base, success⟩ := parse?_logged sensible owner spellable
    refine ⟨base, _, _, success, rfl, rfl, rfl, rfl, ?_⟩
    intro text
    rw [Pattern.isMatch_iff_means, String.toList_ofList, Glob.means_escape_iff, whole, String.ext_iff,
      String.toList_ofList]

/-- A path that needs both quotation marks and escape signs. -/
theorem saysSame_logged_quoted :
    ∃ file, ofLogEvent "/home/a b/[x]\t*" "rk" true = .ok file ∧
      SaysSame (Rule.clean ⟨{ origin := .logEvent }, .file file⟩ 0) file "/home/a b/[x]\t*" := by
  have made : ofLogEvent "/home/a b/[x]\t*" "rk" true =
      .ok (granting ⟨"/home/a b/\\[x\\]\t\\*", some "/home/a b/[x]\t*"⟩
        ⟨{ read := true, lock := true }, none⟩ true) := by
    decide +kernel
  exact ⟨_, made, (saysSame_logged_iff rfl made).mpr (by decide)⟩

/-- A tab in the path ends it, and the rest of the path is read as permissions and a comment. -/
theorem not_saysSame_logged_tab :
    ∃ file again, ofLogEvent "/x\trw,#" "r" false = .ok file ∧
      Rule.parse? (Rule.clean ⟨{ origin := .logEvent }, .file file⟩ 0) =
        some (.ok ⟨{ comment := " # r,", written := some "/x\trw,# r," }, .file again⟩) ∧
      again.path = .only ⟨"/x", none⟩ ∧ again.permissions = .only { read := true, write := true } ∧
      ¬SaysSame (Rule.clean ⟨{ origin := .logEvent }, .file file⟩ 0) file "/x\trw,#" := by
  have made : ofLogEvent "/x\trw,#" "r" false =
      .ok (granting ⟨"/x\trw,#", some "/x\trw,#"⟩ ⟨{ read := true }, none⟩ false) := by
    decide +kernel
  have reread : Rule.parse? (Rule.clean ⟨{ origin := .logEvent }, .file
        (granting ⟨"/x\trw,#", some "/x\trw,#"⟩ ⟨{ read := true }, none⟩ false)⟩ 0) =
      some (.ok ⟨{ comment := " # r,", written := some "/x\trw,# r," }, .file
        (granting ⟨"/x", none⟩ ⟨{ read := true, write := true }, none⟩ false)⟩) := by
    have line : Rule.clean ⟨{ origin := .logEvent }, .file
        (granting ⟨"/x\trw,#", some "/x\trw,#"⟩ ⟨{ read := true }, none⟩ false)⟩ 0 = "/x\trw,# r," := by
      decide
    rw [line]
    decide +kernel
  refine ⟨_, _, made, reread, rfl, rfl, ?_⟩
  rintro ⟨base, file, pattern, again, same, _⟩
  rw [reread] at again
  cases again
  exact absurd same (by decide)

end File

end ArmorPolicy
