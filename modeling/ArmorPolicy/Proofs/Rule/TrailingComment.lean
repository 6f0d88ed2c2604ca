import ArmorPolicy.Proofs.Rule.CommentVariable
import ArmorPolicy.Proofs.Rule.RoundTrip

/-!
# The kind of a rule and the comment behind it

A line that makes a rule of one kind is read as that rule, whatever the order in which the kinds are
tried.  The exception are file rules whose path starts with a variable and goes on like an assignment:
there the assignment comes first.

A comment behind a line without one does not change the rule that the line makes, and the rule keeps
the comment without the blanks at its end.  The exception are capabilities with a blank behind their
keyword: their names go on to the last comma of the comment that could end a line.
-/

namespace ArmorPolicy

open List Text Line

variable {kind other : RuleKind} {text line : List Char} {rule again : Rule}

/-! ## No kind hides a rule of another -/

namespace Rule

theorem readAs?_eq_none_of_file (made : readAs? .file line = some (.ok rule)) (keyword : kind ≠ .file)
    (notVariable : kind ≠ .assignment) : readAs? kind line = none := by
  cases found : readAs? kind line with
  | none => rfl
  | some result =>
    obtain ⟨_, _, s, behind, word, member, lead⟩ := leads_of_readAs? keyword found
    rw [readAs?] at made
    obtain ⟨statement, read, _, made⟩ := readBy_eq_ok made
    obtain ⟨file, isFile, _⟩ := Checked.map_eq_ok.mp made
    obtain ⟨t, behindFile, readable⟩ := File.exists_behind_of_read? read isFile
    obtain ⟨_, _, rfl⟩ := behind.unique behindFile
    exact absurd lead (File.notStarts_of_readParts? (File.foreign_of_lead notVariable member) readable
      (File.letters_subset_alphabet isFile))

theorem readAs?_eq_none_of_keyword {result : Checked Rule} (found : readAs? kind line = some result)
    (keyword : kind ≠ .file) (otherKeyword : other ≠ .file) (differs : other ≠ kind) :
    readAs? other line = none := by
  cases also : readAs? other line with
  | none => rfl
  | some _ =>
    exact absurd ((leads_of_readAs? keyword found).unique (leads_of_readAs? otherKeyword also)) differs

theorem parse?_of_keyword {result : Checked Rule} (keyword : kind ≠ .file)
    (found : readAs? kind line = some result) : parse? (String.ofList line) = some result :=
  parse?_of_readAs? found fun _ differs otherKeyword =>
    readAs?_eq_none_of_keyword found keyword otherKeyword differs

theorem parse?_of_file (made : readAs? .file line = some (.ok rule))
    (unassigned : readAs? .assignment line = none) : parse? (String.ofList line) = some (.ok rule) := by
  refine parse?_of_readAs? made fun other _ keyword => ?_
  by_cases assigns : other = .assignment
  · rw [assigns]
    exact unassigned
  · exact readAs?_eq_none_of_file made keyword assigns

theorem eq_or_assignment_of_readAs? {result : Rule} (made : readAs? kind line = some (.ok rule))
    (also : readAs? other line = some (.ok result)) :
    other = kind ∨ kind = .assignment ∧ other = .file ∨ kind = .file ∧ other = .assignment := by
  by_cases file : kind = .file
  · subst file
    by_cases same : other = .file
    · exact .inl same
    · by_cases assigns : other = .assignment
      · exact .inr (.inr ⟨rfl, assigns⟩)
      · rw [readAs?_eq_none_of_file made same assigns] at also
        cases also
  · by_cases otherFile : other = .file
    · subst otherFile
      by_cases assigns : kind = .assignment
      · exact .inr (.inl ⟨assigns, rfl⟩)
      · rw [readAs?_eq_none_of_file also file assigns] at made
        cases made
    · by_cases same : other = kind
      · exact .inl same
      · rw [readAs?_eq_none_of_keyword made file otherFile same] at also
        cases also

/-! ## Main result -/

/-- A rule of some kind is what its line is read as, exactly unless it is a file rule on a line that
also fits the grammar of assignments.  No other two kinds make rules from the same line. -/
theorem parse?_eq_parseAs {line : String} (made : parseAs kind line = .ok rule) :
    (parse? line = some (.ok rule) ↔ ¬(kind = .file ∧ fits .assignment line.toList = true)) ∧
      ∀ other result, parseAs other line = .ok result →
        other = kind ∨ kind = .assignment ∧ other = .file ∨ kind = .file ∧ other = .assignment := by
  have found := readAs?_of_parseAs made
  refine ⟨⟨?_, ?_⟩, fun other result also => eq_or_assignment_of_readAs? found (readAs?_of_parseAs also)⟩
  · rintro read ⟨rfl, assigns⟩
    obtain ⟨assigned, isAssigned⟩ := Option.isSome_iff_exists.mp assigns
    have first := parse?_of_keyword (by decide) isAssigned
    rw [String.ofList_toList, read] at first
    cases first
    have impossible := (kind_of_readAs? isAssigned).symm.trans (kind_of_readAs? found)
    cases impossible
  · intro free
    rw [← String.ofList_toList (s := line)]
    by_cases file : kind = .file
    · subst file
      refine parse?_of_file found ?_
      simpa [fits] using free
    · exact parse?_of_keyword file found

/-- A denial with its permissions first is read as what it is; an entry that also makes an assignment
is not. -/
theorem parse?_eq_parseAs_variable :
    parse? "deny owner file rw @\x7bHOME\x7d/a=b, # c" =
      some (.ok ⟨{ deny := true, comment := " # c",
                   written := some "deny owner file rw @\x7bHOME\x7d/a=b, # c" },
        .file { path := .only ⟨"@\x7bHOME\x7d/a=b", none⟩,
                permissions := .only { read := true, write := true }, exec := none, target := .all,
                owner := true, fileWord := true, permissionsFirst := true }⟩) ∧
    ∃ rule, parseAs .file "@\x7bx\x7d=a r," = .ok rule ∧ parse? "@\x7bx\x7d=a r," ≠ some (.ok rule) := by
  refine ⟨(@parse?_eq_parseAs .file _ _ (by decide +kernel)).1.mpr (by decide +kernel), ?_⟩
  have entry : parseAs .file "@\x7bx\x7d=a r," =
      .ok ⟨{ written := some "@\x7bx\x7d=a r," },
        .file { path := .only ⟨"@\x7bx\x7d=a", none⟩, permissions := .only { read := true },
                exec := none, target := .all, owner := false }⟩ := by
    decide +kernel
  exact ⟨_, entry, fun read => (parse?_eq_parseAs entry).1.mp read ⟨rfl, by decide +kernel⟩⟩

end Rule

/-! ## Names that reach into the comment -/

namespace Line

theorem kept_ne_of_suffix {rest : List Char} {comment : String} (isSuffix : rest <:+ text)
    (found : commaEnding? rest = some comment) : comment ≠ kept text := by
  obtain ⟨before, rfl⟩ := isSuffix
  obtain ⟨blanks, behind, rfl, _, isEnd⟩ := commaEnding?_eq_some found
  obtain ⟨between, _, rfl, _, ⟨_, rfl⟩ | ⟨further, rfl, keeps, _⟩⟩ := ending?_eq_some isEnd
  · intro same
    have chars := congrArg String.toList same
    simp [kept] at chars
  · rintro rfl
    have regroup : '#' :: (before ++ (blanks ++ ',' :: (between ++ '#' :: further))) =
        ('#' :: (before ++ (blanks ++ ',' :: between))) ++ '#' :: further := by simp
    rw [kept, String.toList_ofList, regroup, trimEnd_append_cons (by decide)] at keeps
    have lengths := congrArg List.length keeps
    simp only [length_cons, length_append] at lengths
    omega

theorem EndsLine.exists_split (ends : EndsLine text) :
    ∃ before rest, '#' :: text = before ++ rest ∧ EndsSolid before ∧ (commaEnding? rest).isSome := by
  obtain ⟨rest, ⟨before, rfl⟩, isEnd⟩ := ends
  obtain ⟨blanks, split, blank⟩ := exists_blanks_behind ('#' :: before)
  refine ⟨trimEnd ('#' :: before), blanks ++ rest, ?_, endsSolid_trimEnd ?_, ?_⟩
  · rw [← append_assoc, ← split]
    rfl
  · rw [trimEnd_cons_of_solid (by decide)]
    exact cons_ne_nil _ _
  · rwa [commaEnding?_blanks blank]

end Line

namespace Capability

variable {s : List Char} {comment : String}

theorem suffix_of_namesFrom? {named : Bool} {part before rest : List Char} (split : s = before ++ rest)
    (solid : EndsSolid before) (ends : (commaEnding? rest).isSome)
    (found : namesFrom? named s = some (part, comment)) :
    ∃ behind, behind <:+ rest ∧ commaEnding? behind = some comment := by
  obtain ⟨behind, whole, _, ending, later⟩ := namesFrom?_eq_some found
  refine ⟨behind, ?_, ending⟩
  rcases suffix_or_suffix_of_suffix ⟨part, whole.symm⟩ ⟨before, split.symm⟩ with inside | ⟨gap, rfl⟩
  · exact inside
  · cases gap with
    | nil => exact suffix_refl rest
    | cons c gap =>
      have shape : before = part ++ c :: gap := by
        rw [split, ← append_assoc] at whole
        exact append_cancel_right whole
      have gapSolid : EndsSolid (c :: gap) := solid.of_suffix ⟨part, shape.symm⟩ (cons_ne_nil c gap)
      rw [later (c :: gap) rest rfl gapSolid] at ends
      cases ends

theorem comment_ne_kept {names : Option (List Char)} (starts : StartsBlank s) (ends : EndsLine text)
    (found : readNames? (s ++ trailing text) = some (names, comment)) : comment ≠ kept text := by
  obtain ⟨before, rest, split, solid, isEnd⟩ := ends.exists_split
  have whole : s ++ trailing text = (s ++ ' ' :: before) ++ rest := by
    simp [trailing, split]
  have solidHere : EndsSolid (s ++ ' ' :: before) := (solid.cons ' ').append s
  have blankFirst : StartsBlank (s ++ trailing text) := by
    obtain ⟨c, more, rfl, blank⟩ := starts
    exact ⟨c, more ++ trailing text, rfl, blank⟩
  rw [readNames?, names?_of_startsBlank blankFirst] at found
  rcases Option.or_eq_some_iff.mp found with named | ⟨unnamed, _⟩
  · obtain ⟨⟨part, _⟩, isNames, ⟨⟩⟩ := Option.map_eq_some_iff.mp named
    obtain ⟨behind, within, ending⟩ := suffix_of_namesFrom? whole solidHere isEnd isNames
    refine kept_ne_of_suffix (within.trans ?_) ending
    obtain ⟨c, before, rfl⟩ := exists_cons_of_ne_nil solid.ne_nil
    exact ⟨before, (cons.inj split).2.symm⟩
  · rw [Option.map_eq_none_iff, namesFrom?_eq_none_iff] at unnamed
    have solidName := (endsName_iff false solidHere.ne_nil).mpr solidHere
    rw [unnamed _ _ whole solidName] at isEnd
    cases isEnd

end Capability

namespace Rule

theorem comment_ne_kept (reaches : ReachesComment line text)
    (success : readAs? .capability (line ++ trailing text) = some (.ok again)) :
    again.base.comment ≠ kept text := by
  obtain ⟨ends, audit, decision, s, behind, starts⟩ := reaches
  simp only [readAs?] at success
  obtain ⟨statement, found, base, _⟩ := readBy_eq_ok success
  obtain ⟨t, behindAgain, readable⟩ := Capability.needsLead.exists_behind found
  obtain ⟨_, _, rfl⟩ := (behind.append_trailing (by simp)).unique behindAgain
  rw [append_assoc, after?_append, Option.bind_some] at readable
  rw [base]
  exact Capability.comment_ne_kept starts ends readable

/-! ## Every kind -/

theorem readAs?_commented (oneLine : '\n' ∉ text) (plain : rule.base.comment = "")
    (free : ¬(rule.kind = .capability ∧ ReachesComment line text))
    (success : readAs? rule.kind line = some (.ok rule)) :
    readAs? rule.kind (line ++ trailing text) = some (.ok (rule.commented line text)) := by
  revert free success
  cases rule.kind <;> intro free success
  case abi => exact abi_commented oneLine plain success
  case aliasing => exact aliasing_commented oneLine plain success
  case boolean => exact boolean_commented oneLine plain success
  case capability => exact capability_commented oneLine plain (fun reaches => free ⟨rfl, reaches⟩) success
  case changeProfile => exact changeProfile_commented oneLine plain success
  case file => exact file_commented oneLine plain success
  case inclusion => exact inclusion_commented oneLine plain success
  case freeform => exact freeform_commented oneLine plain success
  case rlimit => exact rlimit_commented oneLine plain success
  case assignment => exact assignment_commented oneLine plain success
  case dbus => exact keywordStatement_commented readAs?.eq_6 rfl oneLine plain success
  case network => exact keywordStatement_commented readAs?.eq_9 rfl oneLine plain success
  case ptrace => exact keywordStatement_commented readAs?.eq_11 rfl oneLine plain success
  case signal => exact keywordStatement_commented readAs?.eq_13 rfl oneLine plain success
  case userns => exact keywordStatement_commented readAs?.eq_14 rfl oneLine plain success

theorem parse?_commented (oneLine : '\n' ∉ text) (plain : rule.base.comment = "")
    (free : ¬(rule.kind = .capability ∧ ReachesComment line text))
    (success : parse? (String.ofList line) = some (.ok rule)) :
    parse? (String.ofList (line ++ trailing text)) = some (.ok (rule.commented line text)) := by
  have found := readAs?_kind_of_parse? success
  rw [String.toList_ofList] at found
  have commented := readAs?_commented oneLine plain free found
  by_cases file : rule.kind = .file
  · rw [file] at found commented
    refine parse?_of_file commented (assignment_unread found ?_)
    cases assigned : readAs? .assignment line with
    | none => rfl
    | some result =>
      have first := parse?_of_keyword (by decide) assigned
      rw [success] at first
      cases first
      rw [kind_of_readAs? assigned] at file
      cases file
  · exact parse?_of_keyword file commented

theorem same_commented (rule : Rule) : (rule.commented line text).same rule false = .ok true :=
  same_iff_saysSame.mpr ⟨rfl, rfl, rfl⟩

/-! ## Main result -/

/-- With a comment behind its line a rule is read as a rule of the same kind that says the same and
keeps the comment, exactly unless it is a capability rule whose names reach into the comment. -/
theorem parse?_comment_iff {line text : String} {rule : Rule} (success : parse? line = some (.ok rule))
    (plain : rule.base.comment = "") (oneLine : '\n' ∉ text.toList) :
    (∃ again, parse? (line ++ " #" ++ text) = some (.ok again) ∧ again.kind = rule.kind ∧
        again.same rule false = .ok true ∧
        again.base.comment = " #" ++ String.ofList (trimEnd text.toList)) ↔
      ¬(rule.kind = .capability ∧ ReachesComment line.toList text.toList) := by
  have whole : line ++ " #" ++ text = String.ofList (line.toList ++ trailing text.toList) := by
    rw [← String.toList_inj]
    simp [trailing]
  have comment : " #" ++ String.ofList (trimEnd text.toList) = kept text.toList := by
    rw [← String.toList_inj]
    simp [kept, trimEnd_cons_of_solid (c := '#') (by decide)]
  rw [whole, comment]
  constructor
  · rintro ⟨again, read, kind, _, keeps⟩ ⟨capability, reaches⟩
    have found := readAs?_kind_of_parse? read
    rw [kind, capability, String.toList_ofList] at found
    exact comment_ne_kept reaches found keeps
  · intro free
    rw [← String.ofList_toList (s := line)] at success
    exact ⟨_, parse?_commented oneLine plain free success, rfl, same_commented rule, rfl⟩

/-- Commas, quotation marks, braces and signs in the comment of a file rule stay in it. -/
theorem parse?_comment_iff_signs :
    ∃ rule again, parse? "deny owner /etc/\x7ba,b\x7d rw," = some (.ok rule) ∧ rule.base.comment = "" ∧
      parse? ("deny owner /etc/\x7ba,b\x7d rw," ++ " #" ++ " x, \"y\" \x7bz\x7d # w,  ") = some (.ok again) ∧
      again.kind = rule.kind ∧ again.same rule false = .ok true ∧
      again.base.comment = " # x, \"y\" \x7bz\x7d # w," := by
  have found : parse? "deny owner /etc/\x7ba,b\x7d rw," =
      some (.ok ⟨{ deny := true, written := some "deny owner /etc/\x7ba,b\x7d rw," },
        .file { path := .only ⟨"/etc/\x7ba,b\x7d", none⟩,
                permissions := .only { read := true, write := true }, exec := none, target := .all,
                owner := true }⟩) := by
    decide +kernel
  obtain ⟨again, read, kind, same, comment⟩ :=
    (@parse?_comment_iff _ " x, \"y\" \x7bz\x7d # w,  " _ found rfl (by decide)).mpr
      fun reaches => absurd reaches.1 (by decide)
  exact ⟨_, again, found, rfl, read, kind, same, comment.trans (by decide +kernel)⟩

/-- A comma at the end of the comment makes names of what stands before it. -/
theorem parse?_comment_capability :
    ∃ rule again, parse? "capability kill," = some (.ok rule) ∧ rule.base.comment = "" ∧
      parse? ("capability kill," ++ " #" ++ " a,") = some (.ok again) ∧
      again.body = .capability ⟨.only (.ofList ["kill,", "#", "a"])⟩ ∧
      again.same rule false = .ok false ∧ again.base.comment = "" :=
  ⟨⟨{ written := some "capability kill," }, .capability ⟨.only (.ofList ["kill"])⟩⟩,
    ⟨{ written := some "capability kill, # a," }, .capability ⟨.only (.ofList ["kill,", "#", "a"])⟩⟩,
    by decide +kernel, rfl, by decide +kernel, rfl, by decide +kernel, rfl⟩

end Rule

end ArmorPolicy
