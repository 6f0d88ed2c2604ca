import ArmorPolicy.Proofs.Rule.Dispatch

/-!
# Canonical lines of limits

The value of a limit is written as it was read, blanks before its unit included, and is read again.
-/

namespace ArmorPolicy

open List Option Text Line

variable {c : Char} {s value : List Char} {comment : String}

namespace Rlimit

/-- A number, and the unit behind it where blanks stand between them. -/
def IsValue (value : List Char) : Prop :=
  ∃ number blanks letters, value = number ++ blanks ++ letters ∧ number ≠ [] ∧
    (∀ c ∈ number, isSolid c = true ∧ c ≠ ',') ∧ (∀ c ∈ blanks, isBlank c = true) ∧
    (∀ c ∈ letters, isAsciiLetter c = true) ∧ (letters = [] → blanks = [])

theorem isSolid_of_range (low : 48 ≤ c.toNat) (high : c.toNat ≤ 122) : isSolid c ∧ c ≠ ',' := by
  refine ⟨?_, ?_⟩
  · rw [← isBlank_eq_false_iff]
    simp only [isBlank, show c.toNat < 0x80 by omega, if_true]
    simp only [Bool.or_eq_false_iff, beq_eq_false_iff_ne, Bool.and_eq_false_iff,
      decide_eq_false_iff_not]
    omega
  · rintro rfl
    exact absurd low (by decide)

theorem isSolid_of_isAsciiLetter (letter : isAsciiLetter c) : isSolid c ∧ c ≠ ',' := by
  have ranges : (decide (c.val ≥ 'A'.val ∧ c.val ≤ 'Z'.val) ||
      (decide (c.val ≥ 'a'.val) && decide (c.val ≤ 'z'.val))) := letter
  simp only [Bool.or_eq_true, Bool.and_eq_true, decide_eq_true_eq, ge_iff_le,
    UInt32.le_iff_toNat_le] at ranges
  rcases ranges with ⟨low, high⟩ | ⟨low, high⟩
  · exact isSolid_of_range (Nat.le_trans (by decide) low) (Nat.le_trans high (by decide))
  · exact isSolid_of_range (Nat.le_trans (by decide) low) high

theorem isSolid_of_isAsciiDigit (digit : isAsciiDigit c) : isSolid c ∧ c ≠ ',' := by
  obtain ⟨low, high⟩ := Char.isDigit_iff_toNat.mp digit
  exact isSolid_of_range low (Nat.le_trans high (by decide))

theorem solid_of_signed? {level : Int} (found : signed? s = some level) :
    s ≠ [] ∧ ∀ c ∈ s, isSolid c ∧ c ≠ ',' := by
  have digits : ∀ {t : List Char} {n : Nat},
      (if !t.isEmpty && t.all isAsciiDigit then some (ofDigits t) else none) = some n →
      t ≠ [] ∧ ∀ c ∈ t, isSolid c ∧ c ≠ ',' := by
    intro t n number
    split at number
    next valid =>
      simp only [Bool.and_eq_true, Bool.not_eq_true', List.isEmpty_eq_false_iff, List.all_eq_true] at valid
      exact ⟨valid.1, fun c member => isSolid_of_isAsciiDigit (valid.2 c member)⟩
    · cases number
  unfold signed? at found
  split at found
  next t =>
    obtain ⟨n, number, _⟩ := Option.map_eq_some_iff.mp found
    exact ⟨by simp, List.forall_mem_cons.mpr ⟨by decide, (digits number).2⟩⟩
  next t =>
    obtain ⟨n, number, _⟩ := Option.map_eq_some_iff.mp found
    exact ⟨by simp, List.forall_mem_cons.mpr ⟨by decide, (digits number).2⟩⟩
  · obtain ⟨n, number, _⟩ := Option.map_eq_some_iff.mp found
    exact digits number

theorem isValue_of_solid (nonempty : value ≠ []) (solid : ∀ c ∈ value, isSolid c ∧ c ≠ ',') : IsValue value :=
  ⟨value, [], [], by simp, nonempty, solid, by simp, by simp, by simp⟩

theorem isValue_of_numberAndUnit? {number : Nat} {unit : String} (ends : EndsSolid s)
    (found : numberAndUnit? s = some (number, unit)) : IsValue s := by
  simp only [numberAndUnit?] at found
  split at found
  · cases found
  next valid =>
    simp only [Bool.or_eq_true, List.isEmpty_iff, Bool.not_eq_true', not_or, Bool.not_eq_false,
      List.all_eq_true] at valid
    obtain ⟨blanks, split, blank⟩ := exists_blanks (s.dropWhile isAsciiDigit)
    have whole : s = s.takeWhile isAsciiDigit ++ (blanks ++ trimStart (s.dropWhile isAsciiDigit)) := by
      rw [← split, List.takeWhile_append_dropWhile]
    refine ⟨s.takeWhile isAsciiDigit, blanks, trimStart (s.dropWhile isAsciiDigit), ?_, valid.1, ?_,
      blank, valid.2, ?_⟩
    · rw [List.append_assoc]
      exact whole
    · intro c member
      exact isSolid_of_isAsciiDigit (List.all_eq_true.mp List.all_takeWhile c member)
    · intro none
      rw [none, List.append_nil] at whole
      rcases List.eq_nil_or_concat blanks with empty | ⟨before, last, text⟩
      · exact empty
      · rw [whole, text, List.concat_eq_append, ← List.append_assoc] at ends
        exact absurd ends (not_endsSolid_of_blank (blank last (by simp [text])) _)

theorem isValue_of_limit? {resource value : String} {measure : Measure} {limit : LimitValue}
    (ends : value.toList ≠ [] → EndsSolid value.toList)
    (found : limit? resource measure value = some limit) : IsValue value.toList := by
  have withUnit : ∀ {number : Nat} {unit : String},
      numberAndUnit? value.toList = some (number, unit) → IsValue value.toList := by
    intro number unit read
    refine isValue_of_numberAndUnit? (ends ?_) read
    intro empty
    rw [empty] at read
    cases read
  unfold limit? at found
  split at found
  next same =>
    rw [eq_of_beq same]
    exact isValue_of_solid (by decide) (by decide)
  · split at found
    · obtain ⟨level, nice, _⟩ := map_eq_some_iff.mp found
      obtain ⟨signed, _⟩ := filter_eq_some_iff.mp nice
      obtain ⟨nonempty, solid⟩ := solid_of_signed? signed
      exact isValue_of_solid nonempty solid
    · obtain ⟨⟨number, unit⟩, read, _⟩ := bind_eq_some_iff.mp found
      exact withUnit read

theorem unit?_of_trailingComment (valid : TrailingComment comment) :
    unit? (',' :: comment.toList) = some ([], comment) := by
  have noBlanks : (',' :: comment.toList).takeWhile isBlank = [] := rfl
  simp [unit?, noBlanks, commaEnding?_of_trailingComment valid]

theorem unit?_of_letters {blanks letters : List Char} (blank : ∀ c ∈ blanks, isBlank c)
    (someBlank : blanks ≠ []) (letter : ∀ c ∈ letters, isAsciiLetter c)
    (someLetter : letters ≠ []) (valid : TrailingComment comment) :
    unit? (blanks ++ (letters ++ ',' :: comment.toList)) = some (blanks ++ letters, comment) := by
  obtain ⟨c, rest, rfl⟩ := exists_cons_of_ne_nil someLetter
  have solid : isBlank c = false :=
    isBlank_eq_false_iff.mpr (isSolid_of_isAsciiLetter (letter c mem_cons_self)).1
  have comma : isAsciiLetter ',' = false := by decide
  have taken : (blanks ++ c :: (rest ++ ',' :: comment.toList)).takeWhile isBlank = blanks :=
    takeWhile_append_of_stop blank solid
  have left : (blanks ++ c :: (rest ++ ',' :: comment.toList)).dropWhile isBlank =
      c :: (rest ++ ',' :: comment.toList) := dropWhile_append_of_stop blank solid
  have unit : (c :: rest ++ ',' :: comment.toList).takeWhile isAsciiLetter = c :: rest :=
    takeWhile_append_of_stop letter comma
  have behind : (c :: rest ++ ',' :: comment.toList).dropWhile isAsciiLetter = ',' :: comment.toList :=
    dropWhile_append_of_stop letter comma
  rw [cons_append] at unit behind
  simp only [unit?, cons_append, taken, left, unit, behind, commaEnding?_of_trailingComment valid]
  simp [someBlank]

theorem value?_append {number unit rest : List Char} (starts : StartsSolid number)
    (all : ∀ c ∈ number, valueChar c) (stops : ∀ c ∈ rest.head?, valueChar c = false)
    (found : unit? rest = some (unit, comment)) :
    value? (' ' :: number ++ rest) = some (number ++ unit, comment) := by
  have part : longestPart? valueChar unit? (number ++ rest) = some (number, unit, comment) := by
    refine longestPart?_eq_some_iff.mpr ⟨?_, longest?_append_stop all stops found⟩
    obtain ⟨c, tail, rfl, _⟩ := starts
    simp
  have blanks : longest? isBlank (longestPart? valueChar unit?) ([' '] ++ (number ++ rest)) =
      some ([' '], number, unit, comment) := by
    refine longest?_append_stop (by decide) ?_ part
    obtain ⟨c, tail, rfl, solid⟩ := starts
    simpa using isBlank_eq_false_iff.mpr solid
  rw [value?, cons_append, ← singleton_append, blanks]
  rfl

theorem value?_of_isValue (isValue : IsValue value) (valid : TrailingComment comment) :
    value? (' ' :: value ++ ',' :: comment.toList) = some (value, comment) := by
  obtain ⟨number, blanks, letters, rfl, nonempty, solid, blank, letter, alone⟩ := isValue
  have starts : StartsSolid number := by
    obtain ⟨c, rest, rfl⟩ := exists_cons_of_ne_nil nonempty
    exact ⟨c, rest, rfl, (solid c mem_cons_self).1⟩
  have solidChar : ∀ c, isSolid c ∧ c ≠ ',' → valueChar c := by
    rintro c ⟨isSolid, notComma⟩
    simp only [valueChar, Bool.and_eq_true, bne_iff_ne]
    refine ⟨?_, notComma⟩
    rintro rfl
    cases isSolid
  have blankChar : ∀ c, isBlank c → c ≠ ' ' → valueChar c := by
    intro c isBlank notSpace
    simp only [valueChar, Bool.and_eq_true, bne_iff_ne]
    refine ⟨notSpace, ?_⟩
    rintro rfl
    cases isBlank
  have numberChars : ∀ c ∈ number, valueChar c := fun c member => solidChar c (solid c member)
  by_cases space : ' ' ∈ blanks
  · obtain ⟨before, behind, rfl, absent⟩ := eq_append_cons_of_mem space
    have all : ∀ c ∈ number ++ before, valueChar c := by
      intro c member
      rcases mem_append.mp member with inNumber | inBefore
      · exact numberChars c inNumber
      · refine blankChar c (blank c (by simp [inBefore])) ?_
        rintro rfl
        exact absent inBefore
    have someLetter : letters ≠ [] := by
      intro none
      simp at alone
      exact alone none
    have unit := unit?_of_letters (fun c member => blank c (mem_append_right _ member))
      (cons_ne_nil _ _) letter someLetter valid
    have found := value?_append (starts.append before) all (by simp [valueChar]) unit
    simpa using found
  · have all : ∀ c ∈ number ++ blanks ++ letters, valueChar c := by
      intro c member
      simp only [mem_append] at member
      rcases member with (inNumber | inBlanks) | inLetters
      · exact numberChars c inNumber
      · refine blankChar c (blank c inBlanks) ?_
        rintro rfl
        exact space inBlanks
      · exact solidChar c (isSolid_of_isAsciiLetter (letter c inLetters))
    have stops : ∀ c ∈ (',' :: comment.toList).head?, valueChar c = false := by simp [valueChar]
    have found := value?_append ((starts.append blanks).append letters) all stops
      (unit?_of_trailingComment valid)
    rw [append_nil] at found
    exact found

theorem unit?_eq_some {unit : List Char} (found : unit? s = some (unit, comment)) :
    unit ⊆ s ∧ TrailingComment comment := by
  unfold unit? at found
  rcases or_eq_some_iff.mp found with withUnit | ⟨_, without⟩
  · split at withUnit
    · cases withUnit
    · obtain ⟨ending, isEnd, ⟨⟩⟩ := map_eq_some_iff.mp withUnit
      refine ⟨fun c member => ?_, trailingComment_of_commaEnding? isEnd⟩
      rcases mem_append.mp member with inBlanks | inLetters
      · exact (takeWhile_sublist _).subset inBlanks
      · exact (dropWhile_sublist _).subset ((takeWhile_sublist _).subset inLetters)
  · obtain ⟨ending, isEnd, ⟨⟩⟩ := map_eq_some_iff.mp without
    exact ⟨by simp, trailingComment_of_commaEnding? isEnd⟩

theorem value?_eq_some (found : value? s = some (value, comment)) : value ⊆ s ∧ TrailingComment comment := by
  obtain ⟨⟨blanks, number, unit, ending⟩, read, ⟨⟩⟩ := map_eq_some_iff.mp found
  obtain ⟨rest, rfl, _, part, _⟩ := longest?_eq_some read
  obtain ⟨_, part⟩ := longestPart?_eq_some_iff.mp part
  obtain ⟨tail, rfl, _, ending, _⟩ := longest?_eq_some part
  obtain ⟨inTail, valid⟩ := unit?_eq_some ending
  refine ⟨fun c member => ?_, valid⟩
  rcases mem_append.mp member with inNumber | inUnit
  · simp [inNumber]
  · simp [inTail inUnit]

theorem make_eq_ok_iff {base : RuleBase} {resource value : String} {content : Rlimit} :
    make base resource value = .ok content ↔
      base.forbidModifiers .rlimit = .ok () ∧ ∃ measure limit, measure? resource = some measure ∧
        limit? resource measure (trimmed value) = some limit ∧
        content = ⟨resource, trimmed value, limit⟩ := by
  rw [make, Checked.check_bind_eq_ok]
  cases measure? resource with
  | none => simp [refuse]
  | some measure =>
    cases found : limit? resource measure (trimmed value) with
    | none => simp [refuse, found]
    | some limit => simp [pure, Except.pure, found, eq_comm (a := content)]

theorem solid_of_isLower (lower : c.isLower) : isSolid c := by
  have letter : isAsciiLetter c = (c.isUpper || c.isLower) := rfl
  exact (isSolid_of_isAsciiLetter (by rw [letter, lower, Bool.or_true])).1

end Rlimit

theorem Rule.recovered_of_limit {rule : Rule} {line : List Char} {content : Rlimit} (shape : rule.body = .rlimit content)
    (audit : rule.base.audit = false) (decision : rule.base.decision = .unstated)
    (stated : rule.base.Stated) (valid : TrailingComment rule.base.comment)
    (some : content.resource.toList ≠ []) (lower : ∀ c ∈ content.resource.toList, c.isLower)
    (isValue : Rlimit.IsValue content.value.toList) (oneLine : '\n' ∉ line → '\n' ∉ content.value.toList)
    (made : Rlimit.make rule.rewritten.base content.resource content.value = .ok content) :
    rule.Restored line := by
  have kind : rule.kind = .rlimit := by rw [Rule.kind, shape]; rfl
  have bodyText : rule.body.text.toList = "set".toList ++ ' ' :: ("rlimit".toList ++ ' ' ::
      (content.resource.toList ++ ' ' :: '<' :: '=' :: ' ' :: content.value.toList)) := by
    rw [shape]
    simp [RuleBody.text, Rlimit.text]
  have text : rule.statementText = "set".toList ++ ' ' :: ("rlimit".toList ++ ' ' ::
      (content.resource.toList ++ ' ' :: '<' :: '=' ::
        (' ' :: content.value.toList ++ ',' :: rule.base.comment.toList))) := by
    simp [statementText, kind, bodyText, RuleKind.terminator]
  have starts : ∀ t, StartsSolid (content.resource.toList ++ t) := by
    intro t
    obtain ⟨c, rest, same⟩ := exists_cons_of_ne_nil some
    rw [same]
    exact ⟨c, rest ++ t, rfl, Rlimit.solid_of_isLower (lower c (by simp [same]))⟩
  have inResource : '\n' ∉ content.resource.toList := fun newline =>
    absurd (lower '\n' newline) (by decide)
  have keyworded : rule.Keyworded line :=
    keyworded_of_comma (fun _ => modifiers_eq_empty audit decision) (by rw [kind]; rfl)
      (by rw [kind]; decide) bodyText stated valid fun inLine => by simp [inResource, oneLine inLine]
  have again : Rlimit.ofParts rule.rewritten.base ⟨content.resource.toList, content.value.toList⟩ =
      .ok content := by
    simpa [Rlimit.ofParts] using made
  refine keyworded.recovered_rewritten kind (readAs?.eq_12 _) (keyworded.shows.withoutModifiers_canonical keyworded.starts audit decision ?_)
    (Checked.map_eq_ok.mpr ⟨content, again, shape.symm⟩)
  have space : Char.isLower ' ' = false := by decide
  have solid : StartsSolid ("rlimit".toList ++ ' ' :: (content.resource.toList ++ ' ' :: '<' :: '=' ::
      (' ' :: content.value.toList ++ ',' :: rule.base.comment.toList))) :=
    ⟨'r', _, rfl, by decide⟩
  have equals : ∀ t, after? "<=" (trimStart (' ' :: '<' :: '=' :: t)) = Option.some t := fun _ => rfl
  have taken : ∀ t, (content.resource.toList ++ ' ' :: t).takeWhile (fun c => c.isLower) =
      content.resource.toList := fun t => takeWhile_append_of_stop lower space
  have left : ∀ t, (content.resource.toList ++ ' ' :: t).dropWhile (fun c => c.isLower) = ' ' :: t :=
    fun t => dropWhile_append_of_stop lower space
  simp only [text, afterWord?_append "set" solid, afterWord?_append "rlimit" (starts _), bind_some,
    taken, left, equals, Rlimit.value?_of_isValue isValue valid]
  simp

theorem Rule.recovered_rlimit {rule : Rule} {line : List Char}
    (success : readAs? .rlimit line = some (.ok rule)) : rule.Restored line := by
  have kind := kind_of_readAs? success
  simp only [readAs?, Rlimit.read?] at success
  obtain ⟨parts, readable, made, stated, audit, decision⟩ := readBy_withoutModifiers_eq_ok success
  obtain ⟨content, made, shape⟩ := Checked.map_eq_ok.mp made
  obtain ⟨s, words, readable⟩ := bind_eq_some_iff.mp readable
  obtain ⟨start, isSet, isRlimit⟩ := bind_eq_some_iff.mp words
  have within : s ⊆ line :=
    List.Subset.trans ((afterWord?_suffix isRlimit).trans (afterWord?_suffix isSet)).subset
      (trimStart_sublist line).subset
  split at readable
  · cases readable
  next someLower =>
    obtain ⟨t, behind, readable⟩ := bind_eq_some_iff.mp readable
    obtain ⟨⟨value, comment⟩, found, ⟨⟩⟩ := map_eq_some_iff.mp readable
    obtain ⟨inText, valid⟩ := Rlimit.value?_eq_some found
    obtain ⟨allowed, measure, limit, measured, limited, rfl⟩ := Rlimit.make_eq_ok_iff.mp made
    have chars : (trimmed (String.ofList value)).toList = trim value := by simp [trimmed]
    have ends : (trimmed (String.ofList value)).toList ≠ [] →
        EndsSolid (trimmed (String.ofList value)).toList := by
      rw [chars]
      exact endsSolid_trimEnd
    have oneLine : '\n' ∉ line → '\n' ∉ (trimmed (String.ofList value)).toList := by
      rw [chars]
      intro inLine newline
      have inRest := (suffix_of_after? behind).subset (inText ((trim_sublist value).subset newline))
      exact inLine (within ((dropWhile_sublist _).subset ((trimStart_sublist _).subset inRest)))
    have again : trimmed (trimmed (String.ofList value)) = trimmed (String.ofList value) := by
      simp [trimmed, trim_trim]
    refine recovered_of_limit shape.symm audit decision stated valid (by simpa using someLower) ?_
      (Rlimit.isValue_of_limit? ends limited) oneLine ?_
    · intro c member
      rw [String.toList_ofList] at member
      exact all_eq_true.mp all_takeWhile c member
    · refine Rlimit.make_eq_ok_iff.mpr ⟨allowed, measure, limit, measured, ?_, ?_⟩
      · rw [again]
        exact limited
      · rw [again]

end ArmorPolicy
