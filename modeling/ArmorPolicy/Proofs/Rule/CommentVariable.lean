import ArmorPolicy.Proofs.Rule.CommentPath
import ArmorPolicy.Proofs.Rule.Progress
import ArmorPolicy.Proofs.Rule.Variable

/-!
# Settings and assignments with a comment behind them

The value of a boolean and the values of a variable are read as before when a comment is put behind
them.  Values that are nothing but signs `@` take the space before the comment, which does not change
them.  A line that fits no assignment and holds a comma fits none with a comment either.
-/

namespace ArmorPolicy

open Checked List Option Text Line Assignment

variable {c : Char} {line name rest s : List Char} {rule : Rule} {comment : String}
  {text : List Char}

/-! ## Booleans -/

namespace BooleanSetting

/-- The word of a name behind its opening brace, and the text behind it. -/
def word? (opening s : List Char) : Option (List Char × List Char) :=
  if s.takeWhile isWord = [] then none
  else if (s.dropWhile isWord).head? = some '}' then
    some ('$' :: opening ++ s.takeWhile isWord ++ ['}'], (s.dropWhile isWord).drop 1)
  else some ('$' :: opening ++ s.takeWhile isWord, s.dropWhile isWord)

theorem name?_eq (s : List Char) : name? s = (after? "$" s).bind fun s =>
    if s.head? = some '{' then word? ['{'] (s.drop 1) else word? [] s := by
  unfold name?
  congr 1
  funext t
  by_cases brace : t.head? = some '{'
  · simp only [brace, if_true, word?]
    split
    next empty => rw [if_pos empty]
    next nonempty => rw [if_neg nonempty]
  · simp only [brace, if_false, word?]
    split
    next empty => rw [if_pos empty]
    next nonempty => rw [if_neg nonempty]

theorem word?_append_trailing {opening : List Char} (found : word? opening s = some (name, rest)) :
    word? opening (s ++ trailing text) = some (name, rest ++ trailing text) := by
  have stops : isWord ' ' = false := by decide
  unfold word? at found ⊢
  rw [takeWhile_append_trailing stops, dropWhile_append_trailing stops]
  split at found
  · cases found
  next nonempty =>
    rw [if_neg nonempty]
    cases left : s.dropWhile isWord with
    | nil =>
      simp only [left, head?_nil, reduceCtorEq, if_false] at found
      cases found
      rfl
    | cons c more =>
      simp only [left, head?_cons, drop_succ_cons, drop_zero, cons_append] at found ⊢
      split at found
      next brace =>
        cases found
        simp [brace]
      next other =>
        cases found
        simp [other]

theorem name?_append_trailing (found : name? s = some (name, rest)) :
    name? (s ++ trailing text) = some (name, rest ++ trailing text) := by
  rw [name?_eq] at found ⊢
  obtain ⟨t, sign, further⟩ := bind_eq_some_iff.mp found
  refine bind_eq_some_iff.mpr ⟨t ++ trailing text, after?_append_right sign _, ?_⟩
  cases t with
  | nil => cases further
  | cons c t =>
    by_cases brace : c = '{'
    · simp only [brace, head?_cons, if_true, drop_succ_cons, drop_zero, cons_append] at further ⊢
      exact word?_append_trailing further
    · simp only [head?_cons, Option.some.injEq, brace, if_false, cons_append] at further ⊢
      exact word?_append_trailing further

theorem afterFolded?_append {word : List Char} (found : afterFolded? word s = some rest)
    (t : List Char) : afterFolded? word (s ++ t) = some (rest ++ t) := by
  induction word generalizing s with
  | nil =>
    cases found
    rfl
  | cons w word ih =>
    cases s with
    | nil => cases found
    | cons c s =>
      simp only [afterFolded?, cons_append] at found ⊢
      split at found
      next folds =>
        rw [if_pos folds]
        exact ih found
      · cases found

theorem afterFolded?_append_trailing_eq_none {word : List Char}
    (stops : ∀ letter ∈ word, foldsTo letter ' ' = false) (unread : afterFolded? word s = none) :
    afterFolded? word (s ++ trailing text) = none := by
  induction word generalizing s with
  | nil => cases unread
  | cons w word ih =>
    rw [forall_mem_cons] at stops
    cases s with
    | nil => simp [afterFolded?, trailing, stops.1]
    | cons c s =>
      simp only [afterFolded?, cons_append] at unread ⊢
      split at unread
      next folds =>
        rw [if_pos folds]
        exact ih stops.2 unread
      next differs => rw [if_neg differs]

theorem value?_append_trailing {value : Bool} (found : value? s = some (value, rest)) :
    value? (s ++ trailing text) = some (value, rest ++ trailing text) := by
  unfold value? at found ⊢
  rcases or_eq_some_iff.mp found with isTrue | ⟨notTrue, isFalse⟩
  · obtain ⟨_, folded, ⟨⟩⟩ := map_eq_some_iff.mp isTrue
    simp [afterFolded?_append folded]
  · obtain ⟨_, folded, ⟨⟩⟩ := map_eq_some_iff.mp isFalse
    rw [map_eq_none_iff] at notTrue
    simp [afterFolded?_append folded, afterFolded?_append_trailing_eq_none (by decide) notTrue]

end BooleanSetting

theorem Rule.boolean_commented : TakesComment .boolean := by
  intro line text rule oneLine plain success
  simp only [readAs?, BooleanSetting.read?] at success ⊢
  refine readBy_withoutModifiers_commented .boolean (((needsLead_after "$").bind _).bind _) ?_ plain success
    fun s parts _ made readable => ⟨parts, ?_, made⟩
  · intro base other parts body audit deny word made
    simpa [BooleanSetting.ofParts, BooleanSetting.make, RuleBase.forbidModifiers, audit, deny, word] using made
  · obtain ⟨⟨name, u⟩, named, readable⟩ := bind_eq_some_iff.mp readable
    obtain ⟨v, sign, readable⟩ := bind_eq_some_iff.mp readable
    obtain ⟨⟨value, w⟩, valued, readable⟩ := bind_eq_some_iff.mp readable
    obtain ⟨_, ending, ⟨⟩⟩ := map_eq_some_iff.mp readable
    have signThere : trimStart u ≠ [] := by
      intro empty
      rw [empty] at sign
      cases sign
    have valueThere : trimStart v ≠ [] := by
      intro empty
      rw [empty] at valued
      cases valued
    simp only [BooleanSetting.name?_append_trailing named, bind_some, trimStart_append signThere,
      after?_append_right sign, trimStart_append valueThere, BooleanSetting.value?_append_trailing valued,
      looseEnding?_append_trailing oneLine ending, map_some]

/-! ## Assignments -/

namespace Assignment

theorem shortestPart?_isSome_of_trailing (nonempty : s ≠ [])
    (readable : (shortestPart? notNewline looseEnding? (s ++ trailing text)).isSome) :
    (shortestPart? notNewline looseEnding? s).isSome := by
  obtain ⟨part, rest, split, some, allowed, ends⟩ := shortestPart?_isSome_iff.mp readable
  rcases append_eq_append_iff.mp split with ⟨behind, rfl, _⟩ | ⟨behind, rfl, rfl⟩
  · refine shortestPart?_isSome_iff.mpr ⟨s, [], by simp, nonempty, fun c member => ?_, rfl⟩
    exact allowed c (mem_append_left _ member)
  · refine shortestPart?_isSome_iff.mpr ⟨part, behind, rfl, some, allowed, ?_⟩
    refine isSome_iff_ne_none.mpr fun none => ?_
    rw [looseEnding?_append_trailing_eq_none none] at ends
    cases ends

theorem values?_isSome_iff : (values? s).isSome ↔
    ∃ blanks signs rest, s = blanks ++ (signs ++ rest) ∧ (∀ c ∈ blanks, isBlank c) ∧
      (∀ c ∈ signs, (c == '@')) ∧ (shortestPart? notNewline looseEnding? rest).isSome := by
  simp only [values?, isSome_map, longest?_isSome_iff]
  constructor
  · rintro ⟨blanks, _, rfl, blank, signs, rest, rfl, isSign, readable⟩
    exact ⟨blanks, signs, rest, rfl, blank, isSign, readable⟩
  · rintro ⟨blanks, signs, rest, rfl, blank, isSign, readable⟩
    exact ⟨blanks, signs ++ rest, rfl, blank, signs, rest, rfl, isSign, readable⟩

theorem values?_isSome_of_trailing (comma : ',' ∈ s) (readable : (values? (s ++ trailing text)).isSome) :
    (values? s).isSome := by
  obtain ⟨blanks, signs, rest, split, blank, isSign, further⟩ := values?_isSome_iff.mp readable
  obtain ⟨t, behind, rfl⟩ := exists_of_stop comma (by decide) split blank
  have noBlank : ',' ∉ blanks := fun member => absurd (blank _ member) (by decide)
  have commaBehind : ',' ∈ t := (mem_append.mp comma).resolve_left noBlank
  obtain ⟨u, rfl, rfl⟩ := exists_of_stop commaBehind (by decide) behind.symm isSign
  refine values?_isSome_iff.mpr ⟨blanks, signs, u, rfl, blank, isSign, ?_⟩
  refine shortestPart?_isSome_of_trailing ?_ further
  rintro rfl
  rw [append_nil] at commaBehind
  exact absurd (isSign _ commaBehind) (by decide)

theorem startsSolid_of_values? {values : List Char} (member : c ∈ values) (solid : isSolid c)
    (found : values? s = some (values, comment)) :
    ∃ blanks t signs part, s = blanks ++ t ∧ (∀ d ∈ blanks, isBlank d) ∧ StartsSolid t ∧
      values = signs ++ part ∧
      longest? (· == '@') (shortestPart? notNewline looseEnding?) t = some (signs, part, comment) := by
  obtain ⟨⟨blanks, signs, part, _⟩, cut, ⟨⟩⟩ := map_eq_some_iff.mp found
  obtain ⟨t, rfl, blank, signed, later⟩ := longest?_eq_some cut
  refine ⟨blanks, t, signs, part, rfl, blank, ?_, rfl, signed⟩
  obtain ⟨u, rfl, isSign, shortest, _⟩ := longest?_eq_some signed
  obtain ⟨first, rest, inner, rfl, rfl, allowed, further⟩ := shortestPart?_eq_some_iff.mp shortest
  obtain ⟨ending, rfl, others, ends, _⟩ := shortest?_eq_some further
  cases signs with
  | cons sign signs =>
    have isAt : sign = '@' := by simpa using isSign sign mem_cons_self
    exact ⟨sign, signs ++ first :: (inner ++ ending), rfl, by rw [isAt]; decide⟩
  | nil =>
    refine ⟨first, inner ++ ending, rfl, isBlank_eq_false_iff.mp ?_⟩
    cases firstBlank : isBlank first with
    | false => rfl
    | true =>
      have some : inner ≠ [] := by
        rintro rfl
        rw [nil_append, mem_singleton] at member
        rw [isSolid, member, firstBlank] at solid
        cases solid
      have unread := later [first] (inner ++ ending) rfl (by simp) (by simpa using firstBlank)
      have readable : (shortestPart? notNewline looseEnding? (inner ++ ending)).isSome :=
        shortestPart?_isSome_iff.mpr ⟨inner, ending, rfl, some, others, isSome_of_eq_some ends⟩
      have signed := longest?_isSome (p := (· == '@')) readable
      rw [unread] at signed
      cases signed

theorem eq_nil_of_looseEnding? (isSign : ∀ c ∈ s, (c == '@'))
    (found : looseEnding? s = some comment) : s = [] := by
  cases s with
  | nil => rfl
  | cons c rest =>
    have isAt : c = '@' := by simpa using isSign c mem_cons_self
    rw [isAt, looseEnding?_eq, commaEnding?_of_solid (by decide) (by decide),
      ending?_of_solid (by decide) (by decide)] at found
    cases found

theorem shortestPart?_trailing (oneLine : '\n' ∉ text) :
    shortestPart? notNewline looseEnding? (trailing text) = some ([' '], kept text) := by
  refine shortestPart?_eq_some_iff.mpr ⟨' ', '#' :: text, [], rfl, rfl, by decide, ?_⟩
  simp [shortest?, looseEnding?_sign oneLine]

theorem signedValues?_append_trailing (oneLine : '\n' ∉ text) {signs part : List Char}
    (found : longest? (· == '@') (shortestPart? notNewline looseEnding?) s = some (signs, part, "")) :
    ∃ first rest, trim (first ++ rest) = trim (signs ++ part) ∧
      longest? (· == '@') (shortestPart? notNewline looseEnding?) (s ++ trailing text) =
        some (first, rest, kept text) := by
  obtain ⟨t, rfl, isSign, shortest, later⟩ := longest?_eq_some found
  by_cases allSigns : ∀ c ∈ t, (c == '@')
  · obtain ⟨c, _, inner, rfl, rfl, _, further⟩ := shortestPart?_eq_some_iff.mp shortest
    obtain ⟨rest, rfl, _, ends, _⟩ := shortest?_eq_some further
    have restSigns : ∀ d ∈ rest, (d == '@') := fun d member => allSigns d (by simp [member])
    obtain rfl : rest = [] := eq_nil_of_looseEnding? restSigns ends
    rw [append_nil] at allSigns ⊢
    refine ⟨signs ++ c :: inner, [' '], trim_append_of_blank (by decide) _, ?_⟩
    refine longest?_append_stop (forall_mem_append.mpr ⟨isSign, allSigns⟩) ?_ (shortestPart?_trailing oneLine)
    rintro _ ⟨⟩
    rfl
  · refine ⟨signs, part, rfl, ?_⟩
    rw [append_assoc]
    refine longest?_append isSign ?_ (shortestPart?_append_trailing
      (fun _ => looseEnding?_append_trailing oneLine) (fun _ => looseEnding?_append_trailing_eq_none) shortest)
    intro start suffix split nonempty startSigns
    obtain ⟨w, rfl, rfl⟩ := exists_before_stop (by decide) split startSigns
    have some : w ≠ [] := by
      rintro rfl
      rw [append_nil] at allSigns
      exact allSigns startSigns
    refine not_isSome_iff_eq_none.mp fun readable => ?_
    have unread := later start w rfl nonempty startSigns
    have here := shortestPart?_isSome_of_trailing some readable
    rw [unread] at here
    cases here

theorem values?_append_trailing (oneLine : '\n' ∉ text) {values : List Char} (member : c ∈ values)
    (solid : isSolid c) (found : values? s = some (values, "")) :
    ∃ again, trim again = trim values ∧ values? (s ++ trailing text) = some (again, kept text) := by
  obtain ⟨blanks, t, signs, part, rfl, blank, ⟨d, rest, rfl, dSolid⟩, rfl, signed⟩ :=
    startsSolid_of_values? member solid found
  obtain ⟨first, further, trimmed, again⟩ := signedValues?_append_trailing oneLine signed
  refine ⟨first ++ further, trimmed, ?_⟩
  have stops : ∀ e ∈ (d :: rest ++ trailing text).head?, isBlank e = false := by
    rintro _ ⟨⟩
    exact isBlank_eq_false_iff.mpr dSolid
  rw [values?, append_assoc, longest?_append_stop blank stops again]
  rfl

theorem exists_solid_of_separate {values : SortedSet String} (nonempty : values.toList ≠ [])
    (success : separate s = .ok values) : ∃ c ∈ s, isSolid c := by
  refine Decidable.byContradiction fun none => nonempty (eq_nil_of_separate (fun c member => ?_) success)
  cases blank : isBlank c with
  | true => rfl
  | false => exact absurd ⟨c, member, isBlank_eq_false_iff.mp blank⟩ none

theorem readParts?_append_trailing (oneLine : '\n' ∉ text) {parts : Parts}
    (member : c ∈ parts.values) (solid : isSolid c) (found : readParts? s = some (parts, "")) :
    ∃ values, trim values = trim parts.values ∧
      readParts? (s ++ trailing text) = some ({ parts with values }, kept text) := by
  obtain ⟨⟨name, t⟩, named, readable⟩ := bind_eq_some_iff.mp found
  obtain ⟨⟨mode, u⟩, signed, readable⟩ := bind_eq_some_iff.mp readable
  obtain ⟨⟨values, _⟩, valued, ⟨⟩⟩ := map_eq_some_iff.mp readable
  obtain ⟨isName, rfl⟩ := name?_eq_some_iff.mp named
  obtain ⟨again, trimmed, found⟩ := values?_append_trailing oneLine member solid valued
  refine ⟨again, trimmed, ?_⟩
  have namedAgain : name? (name ++ t ++ trailing text) = some (name, t ++ trailing text) :=
    name?_eq_some_iff.mpr ⟨isName, append_assoc _ _ _⟩
  have sign := mode?_eq_some_iff.mp signed
  have signThere : trimStart t ≠ [] := by
    obtain ⟨d, rest, shape, _⟩ := startsSolid_sign mode u
    simp [sign, shape]
  have signedAgain : mode? (trimStart (t ++ trailing text)) = some (mode, u ++ trailing text) := by
    rw [trimStart_append signThere, sign, append_assoc]
    exact mode?_eq_some_iff.mpr rfl
  simp only [readParts?, namedAgain, bind_some, signedAgain, found, map_some]

end Assignment

theorem Rule.assignment_commented : TakesComment .assignment := by
  intro line text rule oneLine plain success
  simp only [readAs?] at success ⊢
  have needs : NeedsLead RuleKind.assignment.leads readParts? :=
    ((needsLead_after "@\x7b").bind _).bind _
  refine readBy_withoutModifiers_commented _ needs ?_ plain success fun s parts _ made readable => ?_
  · intro base other parts body audit deny word made
    simpa [ofParts, make, RuleBase.forbidModifiers, audit, deny, word] using made
  · obtain ⟨assignment, isAssignment, shape⟩ := map_eq_ok.mp made
    obtain ⟨values, separated, isMade⟩ := bind_eq_ok.mp isAssignment
    obtain ⟨_, nonempty⟩ := make_eq_ok isMade
    obtain ⟨c, member, solid⟩ := exists_solid_of_separate nonempty separated
    obtain ⟨again, trimmed, commented⟩ := readParts?_append_trailing oneLine member solid readable
    refine ⟨{ parts with values := again }, commented, ?_⟩
    refine map_eq_ok.mpr ⟨assignment, bind_eq_ok.mpr ⟨values, ?_, isMade⟩, shape⟩
    rwa [separate_congr trimmed]

/-! ## Lines that fit no assignment -/

namespace Assignment

theorem IsName.endsSolid (isName : IsName name) : EndsSolid name := by
  obtain ⟨word, rfl, _⟩ := isName
  exact ⟨'@' :: '{' :: word, '}', rfl, by decide⟩

theorem IsName.notMem (isName : IsName name) (noWord : isWord c = false)
    (noBrace : c ∉ ['@', '{', '}']) : c ∉ name := by
  obtain ⟨word, rfl, _, all⟩ := isName
  intro member
  simp only [mem_cons, mem_append, not_mem_nil, or_false, not_or] at member noBrace
  rcases member with isAt | opening | inWord | closing
  · exact noBrace.1 isAt
  · exact noBrace.2.1 opening
  · rw [all c inWord] at noWord
    cases noWord
  · exact noBrace.2.2 closing

theorem endsSolid_sign (mode : AssignMode) : EndsSolid mode.sign.toList := by
  cases mode with
  | define => exact ⟨[], '=', rfl, by decide⟩
  | append => exact ⟨['+'], '=', rfl, by decide⟩

theorem readParts?_isSome_of_trailing (comma : ',' ∈ s)
    (readable : (readParts? (s ++ trailing text)).isSome) : (readParts? s).isSome := by
  obtain ⟨_, found⟩ := isSome_iff_exists.mp readable
  obtain ⟨⟨name, t⟩, named, further⟩ := bind_eq_some_iff.mp found
  obtain ⟨⟨mode, u⟩, signed, further⟩ := bind_eq_some_iff.mp further
  obtain ⟨_, valued, _⟩ := map_eq_some_iff.mp further
  obtain ⟨isName, split⟩ := name?_eq_some_iff.mp named
  obtain ⟨t, rfl, rfl⟩ := exists_of_endsSolid split isName.endsSolid (isName.notMem (by decide) (by decide))
  have commaBehind : ',' ∈ t := (mem_append.mp comma).resolve_left (isName.notMem (by decide) (by decide))
  have commaThere : ',' ∈ trimStart t := mem_trimStart_of_solid commaBehind (by decide)
  have sign := mode?_eq_some_iff.mp signed
  rw [trimStart_append (ne_nil_of_mem commaThere)] at sign
  have noSign : '#' ∉ mode.sign.toList := by cases mode <;> decide
  have noComma : ',' ∉ mode.sign.toList := by cases mode <;> decide
  obtain ⟨w, rfl, signHere⟩ := exists_of_endsSolid sign (endsSolid_sign mode) noSign
  rw [signHere] at commaThere
  have values : (values? w).isSome :=
    values?_isSome_of_trailing ((mem_append.mp commaThere).resolve_left noComma) (isSome_of_eq_some valued)
  have namedHere : name? (name ++ t) = some (name, t) := name?_eq_some_iff.mpr ⟨isName, rfl⟩
  have signedHere : mode? (trimStart t) = some (mode, w) := mode?_eq_some_iff.mpr signHere
  simp only [readParts?, namedHere, signedHere, bind_some, isSome_map, values]

end Assignment

namespace File

theorem comma_of_permissions? {result : List Char × Option (List Char) × String}
    (found : permissions? s = some result) : ',' ∈ s := by
  obtain ⟨⟨letters, t⟩, lettered, further⟩ := bind_eq_some_iff.mp found
  obtain ⟨_, ends, _⟩ := map_eq_some_iff.mp further
  obtain ⟨u, blanks, isLetters⟩ := bind_eq_some_iff.mp lettered
  refine (afterBlanks?_suffix blanks).subset ?_
  rw [(lettersAt?_eq_some isLetters).1]
  exact mem_append_right _ (start_of_targetEnding? ends).1

theorem comma_of_pathFirst? {entry : List Char × List Char × Option (List Char)}
    (found : pathFirst? ('@' :: '{' :: rest) = some (entry, comment)) : ',' ∈ rest := by
  rw [pathFirst?_eq] at found
  obtain ⟨⟨path, value⟩, isPath, _⟩ := map_eq_some_iff.mp found
  obtain ⟨⟨part, _⟩, further, _⟩ := map_eq_some_iff.mp isPath
  obtain ⟨_, behind, rfl, permitted⟩ := variableRest?_eq_some further
  exact mem_append_right _ (comma_of_permissions? permitted)

theorem comma_of_readParts? {parts : Parts}
    (found : readParts? ('@' :: '{' :: rest) = some (parts, comment)) : ',' ∈ rest := by
  have absent : ∀ word ∈ ["owner", "file"], ¬word.toList <+: '@' :: '{' :: rest := by
    simp [cons_prefix_cons]
  obtain ⟨owner, t, member, reading⟩ := readParts?_cases found
  rcases mem_optionalWord_iff.mp member with ⟨_, rfl⟩ | ⟨_, worded⟩
  · rcases reading with ⟨_, read, _⟩ | ⟨entry, _, isEntry, _⟩
    · exact absurd (prefix_of_after? read) (absent "file" (by decide))
    · rw [pathWithAccess?_of_absent (absent "file" (by decide))] at isEntry
      obtain ⟨_, _, _, ⟨isEntry, _⟩ | ⟨isEntry, _⟩⟩ := eitherOrder?_cases isEntry
      · exact comma_of_pathFirst? isEntry
      · rw [permissionsFirst?, lettersAt?_eq_none (by decide)] at isEntry
        cases isEntry
  · exact absurd (prefix_of_afterWord? worded) (absent "owner" (by decide))

end File

theorem Rule.isSome_readAs?_assignment (line : List Char) :
    (readAs? .assignment line).isSome = (readParts? (trimStart line)).isSome := by
  simp only [readAs?, readBy, isSome_map]
  exact isSome_map

theorem Rule.assignment_unread (success : readAs? .file line = some (.ok rule))
    (unread : readAs? .assignment line = none) : readAs? .assignment (line ++ trailing text) = none := by
  refine not_isSome_iff_eq_none.mp fun readable => ?_
  simp only [readAs?] at success
  obtain ⟨statement, found, _, made⟩ := readBy_eq_ok success
  obtain ⟨file, isFile, _⟩ := map_eq_ok.mp made
  obtain ⟨s, behind, isRead⟩ := File.exists_behind_of_read? found isFile
  have nonempty : s ≠ [] := by
    rintro rfl
    cases isRead
  rw [isSome_readAs?_assignment, trimStart_append (behind.suffix.ne_nil nonempty)] at readable
  have needs : NeedsLead RuleKind.assignment.leads readParts? :=
    ((needsLead_after "@\x7b").bind _).bind _
  obtain ⟨result, isAssigned⟩ := isSome_iff_exists.mp readable
  have unmodified : Unmodified (trimStart line) := fun word modifier starts =>
    needs.unmodified isAssigned word modifier (starts.trans (prefix_append _ _))
  obtain ⟨_, _, rfl⟩ := behind.unique (behind_of_unmodified unmodified)
  have comma : ',' ∈ trimStart line := by
    obtain ⟨_, lead, starts⟩ := needs _ _ isAssigned
    obtain rfl := mem_singleton.mp lead
    have here : "@\x7b".toList <+: trimStart line :=
      Decidable.byContradiction fun absent => notStarts_trailing (by decide) absent starts
    obtain ⟨rest, split⟩ := here
    rw [← split] at isRead ⊢
    exact mem_append_right _ (File.comma_of_readParts? isRead)
  have fits := readParts?_isSome_of_trailing comma readable
  rw [← isSome_readAs?_assignment, unread] at fits
  cases fits

end ArmorPolicy
