import ArmorPolicy.Proofs.Rule.Values

/-!
# Canonical lines of assignments

An assignment is read back from its canonical line where its values are legible and no comment sign
ends them.  Values that were read without quotation marks are words, and legible; a comment sign in
one of them would end the line where the order has brought it behind the first character.
-/

namespace ArmorPolicy

open Checked List Option Text Line Assignment

variable {line s : List Char}

namespace Assignment

/-! ## Names and signs -/

def IsName (name : List Char) : Prop :=
  ∃ word, name = '@' :: '{' :: (word ++ ['}']) ∧ word ≠ [] ∧ ∀ c ∈ word, isWord c = true

theorem name?_eq_some_iff {name rest : List Char} :
    name? s = some (name, rest) ↔ IsName name ∧ s = name ++ rest := by
  constructor
  · intro found
    obtain ⟨t, behind, cut⟩ := bind_eq_some_iff.mp found
    rw [after?_eq_some_iff] at behind
    have whole : t.takeWhile isWord ++ t.dropWhile isWord = t := takeWhile_append_dropWhile
    have all : ∀ c ∈ t.takeWhile isWord, isWord c := fun c member =>
      all_eq_true.mp all_takeWhile c member
    cases taken : t.takeWhile isWord with
    | nil => simp [taken] at cut
    | cons c word =>
      cases left : t.dropWhile isWord with
      | nil => simp [taken, left] at cut
      | cons d after =>
        rw [taken, left] at whole
        rw [taken] at all
        by_cases brace : d = '}'
        · subst brace
          simp only [taken, left] at cut
          cases cut
          refine ⟨⟨c :: word, rfl, cons_ne_nil c word, all⟩, ?_⟩
          rw [behind, ← whole]
          simp
        · simp [taken, left, brace] at cut
  · rintro ⟨⟨word, rfl, nonempty, all⟩, rfl⟩
    have brace : isWord '}' = false := by decide
    obtain ⟨c, tail, rfl⟩ := exists_cons_of_ne_nil nonempty
    have taken : (c :: (tail ++ '}' :: rest)).takeWhile isWord = c :: tail :=
      takeWhile_append_of_stop all brace
    have left : (c :: (tail ++ '}' :: rest)).dropWhile isWord = '}' :: rest :=
      dropWhile_append_of_stop all brace
    simp [name?, after?, afterChars?, taken, left]

theorem mode?_eq_some_iff {rest : List Char} {mode : AssignMode} :
    mode? s = some (mode, rest) ↔ s = mode.sign.toList ++ rest := by
  constructor
  · intro found
    unfold mode? at found
    split at found
    · cases found; rfl
    · cases found; rfl
    · cases found
  · rintro rfl
    cases mode <;> rfl

theorem startsSolid_sign (mode : AssignMode) (rest : List Char) : StartsSolid (mode.sign.toList ++ rest) := by
  cases mode with
  | define => exact ⟨'=', rest, rfl, by decide⟩
  | append => exact ⟨'+', '=' :: rest, rfl, by decide⟩

/-! ## Which lines fit -/

theorem values?_isSome (nonempty : s ≠ []) (oneLine : '\n' ∉ s) : (values? s).isSome := by
  simpa [values?] using longest?_isSome (p := isBlank) (signedValues?_isSome nonempty oneLine)

theorem read?_isSome_iff (starts : StartsSolid line) (oneLine : '\n' ∉ line) :
    (read? line).isSome ↔
      ∃ name blanks mode rest, IsName name ∧ (∀ c ∈ blanks, isBlank c) ∧ rest ≠ [] ∧
        line = name ++ (blanks ++ (AssignMode.sign mode).toList ++ rest) := by
  rw [read?, withoutModifiers, trimStart_of_startsSolid starts, isSome_map]
  constructor
  · intro found
    obtain ⟨parts, found⟩ := isSome_iff_exists.mp found
    obtain ⟨⟨name, behind⟩, named, found⟩ := bind_eq_some_iff.mp found
    obtain ⟨⟨mode, rest⟩, signed, found⟩ := bind_eq_some_iff.mp found
    obtain ⟨isName, rfl⟩ := name?_eq_some_iff.mp named
    obtain ⟨blanks, split, blank⟩ := exists_blanks behind
    rw [mode?_eq_some_iff] at signed
    refine ⟨name, blanks, mode, rest, isName, blank, ?_, by rw [append_assoc, ← signed, ← split]⟩
    rintro rfl
    cases found
  · rintro ⟨name, blanks, mode, rest, isName, blank, nonempty, rfl⟩
    have named : name? (name ++ (blanks ++ mode.sign.toList ++ rest)) =
        some (name, blanks ++ mode.sign.toList ++ rest) := name?_eq_some_iff.mpr ⟨isName, rfl⟩
    have signed : mode? (trimStart (blanks ++ mode.sign.toList ++ rest)) = some (mode, rest) := by
      rw [append_assoc, trimStart_append_of_blank blank,
        trimStart_of_startsSolid (startsSolid_sign mode rest)]
      exact mode?_eq_some_iff.mpr rfl
    have valued : (values? rest).isSome := values?_isSome nonempty fun newline => oneLine (by simp [newline])
    rw [named, bind_some]
    simp only [signed, bind_some, isSome_map, valued]

/-! ## Lines -/

theorem values?_eq_some {values : List Char} {comment : String} (found : values? s = some (values, comment)) :
    values ⊆ s ∧ '\n' ∉ values ∧ TrailingComment comment := by
  obtain ⟨⟨blanks, signs, part, ending⟩, cut, ⟨⟩⟩ := map_eq_some_iff.mp found
  obtain ⟨t, rfl, _, inner, _⟩ := longest?_eq_some cut
  obtain ⟨u, rfl, all, inner, _⟩ := longest?_eq_some inner
  obtain ⟨c, v, rest, rfl, rfl, first, inner⟩ := shortestPart?_eq_some_iff.mp inner
  obtain ⟨behind, rfl, allowed, looseEnd, _⟩ := shortest?_eq_some inner
  refine ⟨?_, ?_, trailingComment_of_looseEnding? looseEnd⟩
  · intro d member
    simp only [mem_append, mem_cons] at member ⊢
    rcases member with inSigns | rfl | inRest
    · exact .inr (.inl inSigns)
    · exact .inr (.inr (.inl rfl))
    · exact .inr (.inr (.inr (.inl inRest)))
  · intro newline
    simp only [mem_append, mem_cons] at newline
    rcases newline with inSigns | rfl | inRest
    · exact absurd (all _ inSigns) (by decide)
    · cases first
    · exact absurd (allowed _ inRest) (by decide)

theorem make_eq_ok {base : RuleBase} {name : String} {mode : AssignMode} {values : SortedSet String}
    {assignment : Assignment} (made : make base name mode values = .ok assignment) :
    assignment = ⟨name, mode, values⟩ ∧ values.toList ≠ [] := by
  simp only [make, bind_eq_ok, refuse, unless_eq_ok] at made
  obtain ⟨_, _, _, nonempty, ⟨⟩⟩ := made
  exact ⟨rfl, by simpa [SortedSet.isEmpty] using nonempty⟩

theorem text_eq (assignment : Assignment) :
    assignment.text.toList = assignment.name.toList ++
      ' ' :: (assignment.mode.sign.toList ++ ' ' :: valuesText assignment.values.toList) := by
  simp [text, valuesText]

def readParts? (s : List Char) : Option (Parts × String) :=
  (name? s).bind fun (name, s) =>
    (mode? (trimStart s)).bind fun (mode, s) =>
      (values? s).map fun (values, comment) => (⟨name, mode, values⟩, comment)

def Legible (assignment : Assignment) : Prop :=
  ∀ value ∈ assignment.values.toList, LegibleValue value.toList

instance (assignment : Assignment) : Decidable assignment.Legible :=
  inferInstanceAs (Decidable (∀ value ∈ assignment.values.toList, _))

def written (assignment : Assignment) : List Char := valuesText assignment.values.toList

end Assignment

namespace Rule

structure Assigns (rule : Rule) (line : List Char) (assignment : Assignment) : Prop where
  body : rule.body = .assignment assignment
  name : Assignment.IsName assignment.name.toList
  values : ∃ s, s ⊆ line ∧ '\n' ∉ s ∧ Assignment.separate s = .ok assignment.values
  nonempty : assignment.values.toList ≠ []
  made : Assignment.make rule.base assignment.name assignment.mode assignment.values = .ok assignment
  comment : TrailingComment rule.base.comment
  stated : rule.base.Stated
  audit : rule.base.audit = false
  decision : rule.base.decision = .unstated

theorem assigns_of_readAs? {rule : Rule} (success : readAs? .assignment line = some (.ok rule)) :
    ∃ assignment, rule.Assigns line assignment := by
  simp only [readAs?, read?] at success
  obtain ⟨parts, readable, made, stated, audit, decision⟩ := readBy_withoutModifiers_eq_ok success
  obtain ⟨assignment, isAssignment, shape⟩ := map_eq_ok.mp made
  obtain ⟨⟨name, s⟩, named, readable⟩ := bind_eq_some_iff.mp readable
  obtain ⟨⟨mode, t⟩, signed, readable⟩ := bind_eq_some_iff.mp readable
  obtain ⟨⟨written, comment⟩, valued, ⟨⟩⟩ := map_eq_some_iff.mp readable
  obtain ⟨values, separated, made⟩ := bind_eq_ok.mp isAssignment
  obtain ⟨rfl, nonempty⟩ := make_eq_ok made
  obtain ⟨isName, split⟩ := name?_eq_some_iff.mp named
  obtain ⟨within, oneLine, valid⟩ := values?_eq_some valued
  refine ⟨_, shape.symm, by simpa using isName, ⟨written, fun c member => ?_, oneLine, separated⟩, nonempty,
    made, valid, stated, audit, decision⟩
  have behind : t ⊆ trimStart s := by
    rw [mode?_eq_some_iff.mp signed]
    exact subset_append_right _ _
  refine (trimStart_sublist line).subset ?_
  rw [split]
  exact mem_append_right _ ((trimStart_sublist s).subset (behind (within member)))

namespace Assigns

variable {rule : Rule} {assignment : Assignment} (assigns : rule.Assigns line assignment)
include assigns

theorem kind : rule.kind = .assignment := by
  rw [Rule.kind, assigns.body]
  rfl

theorem shows : rule.ShowsModifiers := fun _ => modifiers_eq_empty assigns.audit assigns.decision

theorem statementText_eq : rule.statementText = assignment.name.toList ++
    (' ' :: (assignment.mode.sign.toList ++ ' ' :: (assignment.written ++ rule.base.comment.toList))) := by
  simp [statementText, assigns.kind, assigns.body, RuleBody.text, text_eq, written,
    RuleKind.terminator]

theorem lead : ∃ word ∈ rule.kind.keywords, word.toList <+: rule.statementText := by
  obtain ⟨word, shape, _, _⟩ := assigns.name
  refine ⟨"@\x7b", by rw [assigns.kind]; decide, ?_⟩
  rw [assigns.statementText_eq, shape]
  exact ⟨_, rfl⟩

theorem readParts?_statementText {comment : String}
    (valued : values? (' ' :: (assignment.written ++ rule.base.comment.toList)) =
      some (s, comment)) :
    readParts? rule.statementText = some (⟨assignment.name.toList, assignment.mode, s⟩, comment) := by
  have named : name? rule.statementText = some (assignment.name.toList, _) :=
    name?_eq_some_iff.mpr ⟨assigns.name, assigns.statementText_eq⟩
  have signed : mode? (trimStart (' ' :: (assignment.mode.sign.toList ++
      ' ' :: (assignment.written ++ rule.base.comment.toList)))) =
      some (assignment.mode, ' ' :: (assignment.written ++ rule.base.comment.toList)) := by
    rw [trimStart_space, trimStart_of_startsSolid (startsSolid_sign assignment.mode _)]
    exact mode?_eq_some_iff.mpr rfl
  simp only [readParts?, named, bind_some, signed, valued, map_some]

theorem unmarked : ∀ value ∈ assignment.values.toList, '"' ∉ value.toList ∧ '\n' ∉ value.toList := by
  obtain ⟨s, _, oneLine, separated⟩ := assigns.values
  intro value member
  obtain ⟨noMark, within⟩ := subset_of_separate separated value member
  exact ⟨noMark, fun newline => oneLine (within newline)⟩

theorem readable (legible : assignment.Legible) :
    ∀ value ∈ assignment.values.toList, Assignment.Readable value := fun value member =>
  ⟨(assigns.unmarked value member).1, (assigns.unmarked value member).2, legible value member⟩

theorem recovered (legible : assignment.Legible) (unsigned : Assignment.Unsigned assignment.written) :
    rule.Restored line := by
  have readable := assigns.readable legible
  have tidy : Tidy assignment.written := tidy_valuesText readable assigns.nonempty
  have bodyText : rule.body.text.toList = assignment.name.toList ++
      ' ' :: (assignment.mode.sign.toList ++ ' ' :: assignment.written) := by
    rw [assigns.body]
    exact assignment.text_eq
  have keyworded : rule.Keyworded line := by
    refine ⟨⟨assigns.shows, assigns.stated, assigns.comment, ?_, fun _ => ?_⟩, assigns.lead⟩
    · rw [assigns.kind, String.toList_append, bodyText]
      simp only [RuleKind.terminator, String.toList_empty, append_nil]
      exact (((tidy.ends.cons ' ').append _).cons ' ').append _
    · have inName : '\n' ∉ assignment.name.toList := by
        obtain ⟨word, shape, _, all⟩ := assigns.name
        rw [shape]
        simp only [mem_cons, mem_append, not_or]
        exact ⟨by decide, by decide, fun newline => absurd (all _ newline) (by decide), by decide⟩
      have inSign : '\n' ∉ assignment.mode.sign.toList := by cases assignment.mode <;> decide
      simp [bodyText, inName, inSign, tidy.oneLine]
  have space : ∀ c ∈ [' '], isBlank c := by decide
  obtain ⟨blanks, blank, again⟩ := values?_append space tidy
    (getLast?_valuesText readable) unsigned assigns.comment
  have found := keyworded.shows.withoutModifiers_canonical keyworded.starts assigns.audit assigns.decision
    (assigns.readParts?_statementText again)
  refine keyworded.recovered_rewritten assigns.kind (readAs?.eq_15 _) found (map_eq_ok.mpr ⟨assignment, ?_, assigns.body.symm⟩)
  refine bind_eq_ok.mpr ⟨_, separate_valuesText readable blank, ?_⟩
  rw [SortedSet.ofList_toList, String.ofList_toList]
  exact assigns.made

end Assigns

end Rule

end ArmorPolicy
