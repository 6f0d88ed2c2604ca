import ArmorPolicy.Proofs.Rule.Alias
import ArmorPolicy.Proofs.Rule.ChangeProfile
import ArmorPolicy.Proofs.Rule.Comment
import ArmorPolicy.Proofs.Rule.File

/-!
# Statements about paths with a comment behind them

Aliases, changes of profile and file rules read their paths as before when a comment is put behind
them.  The comma that ends the line stands before the comment, and a path that could reach further
would have to take the space behind that comma.
-/

namespace ArmorPolicy

open List Option Text Line

variable {line rest : List Char} {rule : Rule} {text : List Char}

/-! ## Aliases -/

namespace Aliasing

variable {s : List Char}

theorem startsSolid_of_stripQuotes {s : List Char} (slash : (stripQuotes s).head? = some '/') :
    StartsSolid s := by
  cases s with
  | nil => cases slash
  | cons c rest =>
    by_cases mark : c = '"'
    · exact ⟨c, rest, rfl, by rw [mark]; decide⟩
    · rw [stripQuotes_of_head mark] at slash
      exact ⟨c, rest, rfl, by rw [Option.some.inj slash]; decide⟩

theorem destination?_append_trailing (oneLine : '\n' ∉ text) {target : List Char}
    (starts : StartsSolid target) (found : destination? s = some (target, "")) :
    destination? (s ++ trailing text) = some (target, kept text) := by
  obtain ⟨⟨blanks, _, _⟩, cut, ⟨⟩⟩ := map_eq_some_iff.mp found
  obtain ⟨t, rfl, blank, part, _⟩ := longest?_eq_some cut
  have again : shortestPart? notNewline commaEnding? (t ++ trailing text) = some (target, kept text) :=
    shortestPart?_append_trailing (fun _ => commaEnding?_append_trailing oneLine)
      (fun _ => commaEnding?_append_trailing_eq_none) part
  obtain ⟨c, t, tail, rfl, rfl, _⟩ := shortestPart?_eq_some_iff.mp part
  have stops : ∀ d ∈ (c :: t ++ trailing text).head?, isBlank d = false := by
    rintro _ ⟨⟩
    obtain ⟨_, _, shape, solid⟩ := starts
    rw [(List.cons.inj shape).1]
    exact isBlank_eq_false_iff.mpr solid
  rw [destination?, append_assoc, longest?_append_stop blank stops again]
  rfl

theorem destination?_append_trailing_eq_none {first ending : List Char} {c : Char} (member : c ∈ first)
    (solid : isSolid c) (ends : (commaEnding? ending).isSome)
    (unread : destination? (first ++ ending) = none) :
    destination? (first ++ ending ++ trailing text) = none := by
  refine not_isSome_iff_eq_none.mp fun readable => ?_
  obtain ⟨blanks, part, rest, split, blank, nonempty, allowed, further⟩ := destination?_isSome_iff.mp readable
  have contradicts : (destination? (first ++ ending)).isSome → False := by
    rw [unread]
    exact Bool.false_ne_true
  have notBlank : isBlank c = false := isBlank_eq_false_iff.mpr solid
  rw [← append_assoc] at split
  rcases append_eq_append_iff.mp split with ⟨behind, whole, _⟩ | ⟨behind, whole, rfl⟩
  · rw [append_assoc] at whole
    obtain ⟨u, rfl, rfl⟩ := exists_of_stop member notBlank whole.symm blank
    refine contradicts (destination?_isSome_iff.mpr ⟨blanks, u, ending, by simp, blank, ?_, ?_, ends⟩)
    · rintro rfl
      rw [append_nil] at member
      rw [blank c member] at notBlank
      cases notBlank
    · exact fun d inside => allowed d (mem_append_left _ inside)
  · refine contradicts (destination?_isSome_iff.mpr
      ⟨blanks, part, behind, by rw [whole, append_assoc], blank, nonempty, allowed, ?_⟩)
    refine isSome_iff_ne_none.mpr fun none => ?_
    rw [commaEnding?_append_trailing_eq_none none] at further
    cases further

def Arrow (start : List Char) : Prop :=
  ∃ c blanks, isBlank c = true ∧ (∀ d ∈ blanks, isBlank d = true) ∧ start = c :: blanks ++ ['-', '>']

theorem exists_arrow_of_arrow? {found : List Char × String} (isArrow : arrow? s = some found) :
    ∃ start rest, s = start ++ rest ∧ Arrow start ∧ destination? rest = some found := by
  obtain ⟨target, comment⟩ := found
  obtain ⟨c, blanks, rest, blank, allBlank, rfl, reached⟩ := arrow?_eq_some_iff.mp isArrow
  exact ⟨c :: blanks ++ ['-', '>'], rest, by simp, ⟨c, blanks, blank, allBlank, rfl⟩, reached⟩

namespace Arrow

variable {start : List Char} (arrow : Arrow start)
include arrow

theorem arrow?_append (rest : List Char) : arrow? (start ++ rest) = destination? rest := by
  obtain ⟨c, blanks, blank, allBlank, rfl⟩ := arrow
  have signed : trimStart (blanks ++ '-' :: '>' :: rest) = '-' :: '>' :: rest := by
    rw [trimStart_append_of_blank allBlank, trimStart_cons_of_solid (by decide)]
  have pointed : after? "->" ('-' :: '>' :: rest) = some rest := after?_append "->" rest
  simp [arrow?, afterBlanks?, blank, signed, pointed]

theorem endsSolid : EndsSolid start := by
  obtain ⟨c, blanks, _, _, rfl⟩ := arrow
  exact ⟨c :: blanks ++ ['-'], '>', by simp, by decide⟩

theorem sign_mem : '-' ∈ start := by
  obtain ⟨c, blanks, _, _, rfl⟩ := arrow
  simp

theorem noSign : '#' ∉ start := by
  obtain ⟨c, blanks, blank, allBlank, rfl⟩ := arrow
  have notBlank : ∀ d, isBlank d → '#' ≠ d := by
    rintro _ blank rfl
    cases blank
  simp only [cons_append, mem_cons, mem_append, not_mem_nil, or_false, not_or]
  exact ⟨notBlank c blank, fun inside => notBlank '#' (allBlank _ inside) rfl, by decide, by decide⟩

omit arrow in
theorem of_append {before : List Char} {c : Char} (arrow : Arrow (before ++ c :: rest))
    (blank : isBlank c) : Arrow (c :: rest) := by
  obtain ⟨d, blanks, dBlank, allBlank, split⟩ := arrow
  rcases append_eq_append_iff.mp split with ⟨left, whole, shape⟩ | ⟨left, _, shape⟩
  · cases left with
    | nil =>
      obtain ⟨rfl, _⟩ := List.cons.inj shape
      cases blank
    | cons e left =>
      obtain ⟨rfl, rfl⟩ := List.cons.inj shape
      refine ⟨c, left, blank, fun e inside => ?_, rfl⟩
      have among : e ∈ d :: blanks := by
        rw [whole]
        simp [inside]
      rcases mem_cons.mp among with rfl | among
      · exact dBlank
      · exact allBlank e among
  · have signs : c ∈ ['-', '>'] := by
      rw [shape]
      simp
    have solid : ∀ c ∈ ['-', '>'], isBlank c = false := by decide
    rw [solid c signs] at blank
    cases blank

end Arrow

theorem arrow?_append_trailing (oneLine : '\n' ∉ text) {target : List Char}
    (starts : StartsSolid target) (found : arrow? s = some (target, "")) :
    arrow? (s ++ trailing text) = some (target, kept text) := by
  obtain ⟨start, rest, rfl, arrow, reached⟩ := exists_arrow_of_arrow? found
  rw [append_assoc, arrow.arrow?_append]
  exact destination?_append_trailing oneLine starts reached

theorem arrow?_append_trailing_eq_none {before : List Char} {result : List Char × String}
    (found : arrow? s = some result) (unread : arrow? (before ++ s) = none) :
    arrow? (before ++ s ++ trailing text) = none := by
  refine not_isSome_iff_eq_none.mp fun readable => ?_
  obtain ⟨other, isOther⟩ := isSome_iff_exists.mp readable
  obtain ⟨start, more, split, arrow, reached⟩ := exists_arrow_of_arrow? isOther
  obtain ⟨w, rfl, whole⟩ := exists_of_endsSolid split arrow.endsSolid arrow.noSign
  have here : destination? w = none := by
    rw [whole, arrow.arrow?_append] at unread
    exact unread
  obtain ⟨own, rest, rfl, ownArrow, destination⟩ := exists_arrow_of_arrow? found
  have inside : own ++ rest <:+ w := by
    rcases suffix_or_suffix_of_suffix (suffix_append before (own ++ rest)) ⟨_, whole.symm⟩ with
      inside | ⟨left, cut⟩
    · exact inside
    · cases left with
      | nil => exact ⟨[], cut.symm⟩
      | cons c left =>
        have blank : isBlank c := by
          obtain ⟨d, blanks, blank, _, rfl⟩ := ownArrow
          rw [(List.cons.inj cut).1]
          exact blank
        have same : start = before ++ c :: left := by
          rw [← cut, ← append_assoc] at whole
          exact (append_cancel_right whole).symm
        rw [same] at arrow
        rw [← cut, (arrow.of_append blank).arrow?_append, here] at found
        cases found
  obtain ⟨gap, rfl⟩ := inside
  obtain ⟨blanks, part, ending, rfl, _, _, _, ends⟩ :=
    destination?_isSome_iff.mp (isSome_of_eq_some destination)
  have regroup : gap ++ (own ++ (blanks ++ (part ++ ending))) = gap ++ own ++ blanks ++ part ++ ending := by
    simp
  rw [regroup] at here reached
  have member : '-' ∈ gap ++ own ++ blanks ++ part := by
    simp [ownArrow.sign_mem]
  rw [destination?_append_trailing_eq_none member (by decide) ends here] at reached
  cases reached

theorem readParts?_append_trailing (oneLine : '\n' ∉ text) {parts : Parts}
    (pathStarts : StartsSolid parts.path) (targetStarts : StartsSolid parts.target)
    (found : readParts? s = some (parts, "")) :
    readParts? (s ++ trailing text) = some (parts, kept text) := by
  obtain ⟨⟨blanks, path, target, _⟩, cut, ⟨⟩⟩ := map_eq_some_iff.mp found
  obtain ⟨nonempty, cut⟩ := longestPart?_eq_some_iff.mp cut
  obtain ⟨t, rfl, blank, part, _⟩ := longest?_eq_some cut
  obtain ⟨c, t, inner, rfl, rfl, allowed, shortest⟩ := shortestPart?_eq_some_iff.mp part
  obtain ⟨arrow, rfl, all, isArrow, earlier⟩ := shortest?_eq_some shortest
  have again : shortestPart? notNewline arrow? (c :: (inner ++ arrow) ++ trailing text) =
      some (c :: inner, target, kept text) := by
    refine shortestPart?_eq_some_iff.mpr
      ⟨c, inner ++ (arrow ++ trailing text), inner, by simp, rfl, allowed, ?_⟩
    refine shortest?_append all ?_ (arrow?_append_trailing oneLine targetStarts isArrow)
    intro start suffix split nonempty
    rw [← append_assoc]
    exact arrow?_append_trailing_eq_none isArrow (earlier start suffix split nonempty)
  have stops : ∀ d ∈ (c :: (inner ++ arrow) ++ trailing text).head?, isBlank d = false := by
    rintro _ ⟨⟩
    obtain ⟨_, _, shape, solid⟩ := pathStarts
    rw [(List.cons.inj shape).1]
    exact isBlank_eq_false_iff.mpr solid
  rw [readParts?, append_assoc,
    longestPart?_eq_some_iff.mpr ⟨nonempty, longest?_append_stop blank stops again⟩]
  rfl

end Aliasing

theorem Rule.aliasing_commented : TakesComment .aliasing := by
  intro line text rule oneLine plain success
  simp only [readAs?, Aliasing.read?_eq] at success ⊢
  refine readBy_withoutModifiers_commented .aliasing ((needsLead_after "alias").bind _) ?_ plain success
    fun s parts _ made readable => ⟨parts, ?_, made⟩
  · intro base other parts body audit deny word made
    simpa [Aliasing.ofParts, Aliasing.make, RuleBase.forbidModifiers, audit, deny, word] using made
  · obtain ⟨t, lead, reading⟩ := bind_eq_some_iff.mp readable
    obtain ⟨aliasing, isAliasing, _⟩ := Checked.map_eq_ok.mp made
    obtain ⟨_, path, target⟩ := Aliasing.make_eq_ok isAliasing
    rw [String.toList_ofList] at path target
    refine bind_eq_some_iff.mpr ⟨_, after?_append_right lead _, ?_⟩
    exact Aliasing.readParts?_append_trailing oneLine (Aliasing.startsSolid_of_stripQuotes path)
      (Aliasing.startsSolid_of_stripQuotes target) reading

/-! ## Changes of profile -/

namespace ChangeProfile

variable {s : List Char}

theorem mem_scrubbingCuts_iff {scrubbing : Option Scrubbing} :
    (scrubbing, rest) ∈ scrubbingCuts s ↔ scrubbing = none ∧ rest = s ∨
      ∃ word, scrubbing = some word ∧ (afterBlanks? s).bind (after? word.word) = some rest := by
  simp only [scrubbingCuts, mem_append, mem_toList, map_eq_some_iff, Prod.mk.injEq, mem_singleton]
  constructor
  · rintro ((⟨_, cut, rfl, rfl⟩ | ⟨_, cut, rfl, rfl⟩) | ⟨rfl, rfl⟩)
    · exact .inr ⟨.safe, rfl, cut⟩
    · exact .inr ⟨.keeping, rfl, cut⟩
    · exact .inl ⟨rfl, rfl⟩
  · rintro (⟨rfl, rfl⟩ | ⟨word, rfl, cut⟩)
    · exact .inr ⟨rfl, rfl⟩
    · cases word with
      | safe => exact .inl (.inl ⟨rest, cut, rfl, rfl⟩)
      | keeping => exact .inl (.inr ⟨rest, cut, rfl, rfl⟩)

theorem exists_sign_of_condition? {result : Option (List Char) × Option (List Char) × String}
    (found : condition? targetEnding? s = some result) :
    ∃ c rest, trimStart s = c :: rest ∧ c ∈ ['/', '@', '"', '-', ','] := by
  unfold condition? at found
  split at found
  next path value conditioned =>
    obtain ⟨t, blanks, isPath⟩ := bind_eq_some_iff.mp conditioned
    obtain ⟨c, rest, rfl, sign⟩ := exists_sign_of_path? isPath
    have among : ∀ c ∈ ['/', '@', '"'], c ∈ ['/', '@', '"', '-', ','] := by decide
    exact ⟨c, rest, (eq_trimStart_of_afterBlanks? blanks).symm, among c sign⟩
  · obtain ⟨value, ends, _⟩ := map_eq_some_iff.mp found
    obtain ⟨_, ⟨c, rest, starts, sign⟩, _⟩ := start_of_targetEnding? ends
    have among : ∀ c ∈ ['-', ','], c ∈ ['/', '@', '"', '-', ','] := by decide
    exact ⟨c, rest, starts, among c sign⟩

theorem condition?_eq_none {word : Scrubbing}
    (worded : (afterBlanks? s).bind (after? word.word) = some rest) :
    condition? targetEnding? s = none := by
  refine not_isSome_iff_eq_none.mp fun readable => ?_
  obtain ⟨_, found⟩ := isSome_iff_exists.mp readable
  obtain ⟨c, more, starts, sign⟩ := exists_sign_of_condition? found
  obtain ⟨t, blanks, after⟩ := bind_eq_some_iff.mp worded
  have lead := prefix_of_after? after
  rw [eq_trimStart_of_afterBlanks? blanks, starts] at lead
  have other : ∀ c ∈ ['/', '@', '"', '-', ','], c ≠ 's' ∧ c ≠ 'u' := by decide
  cases word with
  | safe => exact (other c sign).1 (cons_prefix_cons.mp lead).1.symm
  | keeping => exact (other c sign).2 (cons_prefix_cons.mp lead).1.symm

theorem condition?_append_trailing (oneLine : '\n' ∉ text) {condition target : Option (List Char)}
    (found : condition? targetEnding? s = some (condition, target, "")) :
    condition? targetEnding? (s ++ trailing text) = some (condition, target, kept text) := by
  unfold condition? at found
  split at found
  next path value conditioned =>
    cases found
    obtain ⟨t, blanks, isPath⟩ := bind_eq_some_iff.mp conditioned
    have nonempty : t ≠ [] := by
      obtain ⟨c, rest, rfl, _⟩ := exists_sign_of_path? isPath
      simp
    have again : path? targetEnding? (t ++ trailing text) = some (path, target, kept text) :=
      path?_append_trailing
        (fun _ ends => ⟨(start_of_targetEnding? ends).2.2 rfl, targetEnding?_append_trailing oneLine ends⟩)
        (fun _ blank => targetEnding?_blanks_trailing blank) isPath
    simp only [condition?, afterBlanks?_append blanks nonempty, bind_some, again]
  next unconditioned =>
    obtain ⟨_, ends, ⟨⟩⟩ := map_eq_some_iff.mp found
    obtain ⟨_, ⟨c, rest, starts, sign⟩, _⟩ := start_of_targetEnding? ends
    have none : (afterBlanks? (s ++ trailing text)).bind (path? targetEnding?) = none := by
      refine not_isSome_iff_eq_none.mp fun readable => ?_
      obtain ⟨⟨path, value⟩, isFound⟩ := isSome_iff_exists.mp readable
      obtain ⟨t, blanks, isPath⟩ := bind_eq_some_iff.mp isFound
      obtain ⟨d, more, rfl, pathSign⟩ := exists_sign_of_path? isPath
      have whole := eq_trimStart_of_afterBlanks? blanks
      rw [trimStart_append (by simp [starts]), starts] at whole
      rw [(List.cons.inj whole).1] at pathSign
      have apart : ∀ c ∈ ['-', ','], c ∉ ['/', '@', '"'] := by decide
      exact apart c sign pathSign
    simp only [condition?, none, targetEnding?_append_trailing oneLine ends, map_some]

theorem word_unique {word other : Scrubbing} {otherRest : List Char}
    (worded : (afterBlanks? s).bind (after? word.word) = some rest)
    (otherWorded : (afterBlanks? s).bind (after? other.word) = some otherRest) : other = word := by
  obtain ⟨t, blanks, after⟩ := bind_eq_some_iff.mp worded
  obtain ⟨_, otherBlanks, otherAfter⟩ := bind_eq_some_iff.mp otherWorded
  obtain rfl := Option.some.inj (otherBlanks.symm.trans blanks)
  have apart : Apart Scrubbing.keeping.word.toList Scrubbing.safe.word.toList := by decide
  cases word <;> cases other
  · rfl
  · exact absurd (prefix_of_after? otherAfter) (apart.notStarts (prefix_of_after? after))
  · exact absurd (prefix_of_after? after) (apart.notStarts (prefix_of_after? otherAfter))
  · rfl

theorem readParts?_append_trailing (oneLine : '\n' ∉ text) {parts : Parts}
    (found : readParts? s = some (parts, "")) :
    readParts? (s ++ trailing text) = some (parts, kept text) := by
  obtain ⟨⟨scrubbing, t⟩, member, success⟩ := exists_of_findSome?_eq_some found
  obtain ⟨⟨condition, target, _⟩, isCondition, ⟨⟩⟩ := map_eq_some_iff.mp success
  have again := condition?_append_trailing oneLine isCondition
  rcases mem_scrubbingCuts_iff.mp member with ⟨rfl, rfl⟩ | ⟨word, rfl, worded⟩
  · refine findSome?_of_unique (mem_scrubbingCuts_iff.mpr (.inl ⟨rfl, rfl⟩))
      (by simp only [again, map_some]) ?_
    rintro ⟨other, u⟩ among differs
    rcases mem_scrubbingCuts_iff.mp among with ⟨rfl, rfl⟩ | ⟨word, _, otherWorded⟩
    · exact absurd rfl differs
    · rw [condition?_eq_none otherWorded] at again
      cases again
  · have wordedAgain : (afterBlanks? (s ++ trailing text)).bind (after? word.word) =
        some (t ++ trailing text) := by
      obtain ⟨u, blanks, after⟩ := bind_eq_some_iff.mp worded
      have nonempty : u ≠ [] := by
        rintro rfl
        cases word <;> cases after
      exact bind_eq_some_iff.mpr ⟨_, afterBlanks?_append blanks nonempty _, after?_append_right after _⟩
    refine findSome?_of_unique (mem_scrubbingCuts_iff.mpr (.inr ⟨word, rfl, wordedAgain⟩))
      (by simp only [again, map_some]) ?_
    rintro ⟨other, u⟩ among differs
    rcases mem_scrubbingCuts_iff.mp among with ⟨rfl, rfl⟩ | ⟨otherWord, rfl, otherWorded⟩
    · simp only [condition?_eq_none wordedAgain, map_none]
    · obtain rfl := word_unique wordedAgain otherWorded
      obtain rfl := Option.some.inj (otherWorded.symm.trans wordedAgain)
      exact absurd rfl differs

end ChangeProfile

theorem Rule.changeProfile_commented : TakesComment .changeProfile := by
  intro line text rule oneLine plain success
  simp only [readAs?, ChangeProfile.read?_eq] at success ⊢
  have needs : NeedsLead RuleKind.changeProfile.leads fun s =>
      (after? "change_profile" s).bind ChangeProfile.readParts? :=
    (needsLead_after "change_profile").bind _
  refine readBy_withModifiers_commented _ needs (fun _ _ _ _ _ _ _ made => made) plain success
    fun _ _ s parts _ readable => ?_
  obtain ⟨t, lead, reading⟩ := bind_eq_some_iff.mp readable
  exact bind_eq_some_iff.mpr
    ⟨_, after?_append_right lead _, ChangeProfile.readParts?_append_trailing oneLine reading⟩

/-! ## Files -/

namespace File

variable {s : List Char}

def permissions? (s : List Char) : Option (List Char × Option (List Char) × String) :=
  ((afterBlanks? s).bind lettersAt?).bind fun (letters, s) =>
    (targetEnding? s).map fun (target, comment) => (letters, target, comment)

theorem pathFirst?_eq (s : List Char) : pathFirst? s =
    (path? permissions? s).map fun (path, letters, target, comment) => ((path, letters, target), comment) := rfl

theorem lettersAt?_append_trailing {letters : List Char} (found : lettersAt? s = some (letters, rest)) :
    lettersAt? (s ++ trailing text) = some (letters, rest ++ trailing text) := by
  have stops : isAsciiLetter ' ' = false := by decide
  unfold lettersAt? at found ⊢
  rw [takeWhile_append_trailing stops, dropWhile_append_trailing stops]
  split at found
  · cases found
  next nonempty =>
    cases found
    rfl

theorem permissions?_append_trailing (oneLine : '\n' ∉ text) {letters : List Char}
    {target : Option (List Char)} (found : permissions? s = some (letters, target, "")) :
    Cut s ∧ permissions? (s ++ trailing text) = some (letters, target, kept text) := by
  obtain ⟨⟨_, u⟩, lettered, further⟩ := bind_eq_some_iff.mp found
  obtain ⟨⟨_, _⟩, ends, ⟨⟩⟩ := map_eq_some_iff.mp further
  obtain ⟨t, blanks, isLetters⟩ := bind_eq_some_iff.mp lettered
  have nonempty : t ≠ [] := by
    rintro rfl
    cases isLetters
  constructor
  · obtain ⟨c, rest, rfl, blank⟩ := exists_blank_of_afterBlanks? blanks
    exact .inl ⟨c, rest, rfl, blank⟩
  · simp only [permissions?, afterBlanks?_append blanks nonempty, bind_some,
      lettersAt?_append_trailing isLetters, targetEnding?_append_trailing oneLine ends, map_some]

theorem permissions?_blanks_trailing {blanks : List Char} (blank : ∀ c ∈ blanks, isBlank c) :
    permissions? (blanks ++ trailing text) = none := by
  have spaced : ∀ c ∈ blanks ++ [' '], isBlank c := by
    rw [forall_mem_append]
    exact ⟨blank, by decide⟩
  have behind : afterBlanks? (blanks ++ [' '] ++ '#' :: text) = some ('#' :: text) :=
    afterBlanks?_blanks (by simp) spaced ⟨'#', text, rfl, by decide⟩
  have whole : blanks ++ trailing text = blanks ++ [' '] ++ '#' :: text := by simp [trailing]
  rw [permissions?, whole, behind, bind_some, lettersAt?_eq_none (by decide)]
  rfl

section Entries

variable (oneLine : '\n' ∉ text) {path letters : List Char} {target : Option (List Char)}
include oneLine

theorem pathFirst?_append_trailing (found : pathFirst? s = some ((path, letters, target), "")) :
    pathFirst? (s ++ trailing text) = some ((path, letters, target), kept text) := by
  rw [pathFirst?_eq] at found ⊢
  obtain ⟨⟨_, _, _, _⟩, isPath, ⟨⟩⟩ := map_eq_some_iff.mp found
  have again : path? permissions? (s ++ trailing text) = some (path, letters, target, kept text) :=
    path?_append_trailing (fun _ => permissions?_append_trailing oneLine)
      (fun _ => permissions?_blanks_trailing) isPath
  rw [again]
  rfl

theorem permissionsFirst?_append_trailing (found : permissionsFirst? s = some ((path, letters, target), "")) :
    permissionsFirst? (s ++ trailing text) = some ((path, letters, target), kept text) := by
  obtain ⟨⟨_, t⟩, isLetters, further⟩ := bind_eq_some_iff.mp found
  obtain ⟨⟨_, _, _⟩, pathed, ⟨⟩⟩ := map_eq_some_iff.mp further
  obtain ⟨u, blanks, isPath⟩ := bind_eq_some_iff.mp pathed
  have nonempty : u ≠ [] := by
    obtain ⟨c, rest, rfl, _⟩ := exists_sign_of_path? isPath
    simp
  have again : path? targetEnding? (u ++ trailing text) = some (path, target, kept text) :=
    path?_append_trailing
      (fun _ ends => ⟨(start_of_targetEnding? ends).2.2 rfl, targetEnding?_append_trailing oneLine ends⟩)
      (fun _ => targetEnding?_blanks_trailing) isPath
  simp only [permissionsFirst?, lettersAt?_append_trailing isLetters, bind_some,
    afterBlanks?_append blanks nonempty, again, map_some]

end Entries

theorem eitherOrder?_append_trailing (oneLine : '\n' ∉ text) {fileWord : Bool} {entry : Entry}
    (found : eitherOrder? fileWord s = some (entry, "")) :
    eitherOrder? fileWord (s ++ trailing text) = some (entry, kept text) := by
  obtain ⟨_, _, _, ⟨isEntry, rfl⟩ | ⟨isEntry, rfl⟩⟩ := eitherOrder?_cases found
  · rw [eitherOrder?, pathFirst?_append_trailing oneLine isEntry]
    rfl
  · have noPath : pathFirst? (s ++ trailing text) = none := by
      obtain ⟨⟨letters, t⟩, isLetters, _⟩ := bind_eq_some_iff.mp isEntry
      obtain ⟨rfl, nonempty, all, _⟩ := lettersAt?_eq_some isLetters
      obtain ⟨c, letters, rfl⟩ := exists_cons_of_ne_nil nonempty
      exact pathFirst?_of_letter (all c mem_cons_self) _
    rw [eitherOrder?, noPath, permissionsFirst?_append_trailing oneLine isEntry]
    rfl

theorem findSome?_optionalWord_trailing {α : Type} {word : String} {found : Bool}
    {read : Bool × List Char → Option α} {value : α} (solid : ∀ c ∈ word.toList, isSolid c)
    (member : (found, rest) ∈ optionalWord word s) (absent : ¬word.toList <+: rest)
    (nonempty : rest ≠ []) (readable : read (found, rest ++ trailing text) = some value) :
    (optionalWord word (s ++ trailing text)).findSome? read = some value := by
  obtain ⟨others, choices⟩ := optionalWord_eq_cons (mem_optionalWord_append member nonempty (trailing text))
    (notStarts_trailing solid absent)
  rw [choices, findSome?_cons, readable]

theorem pathWithAccess?_append_trailing (oneLine : '\n' ∉ text) {entry : Entry}
    (known : entry.letters ⊆ FileAccess.alphabet) (found : pathWithAccess? s = some (entry, "")) :
    pathWithAccess? (s ++ trailing text) = some (entry, kept text) := by
  rw [pathWithAccess?_eq] at found ⊢
  obtain ⟨⟨fileWord, t⟩, member, success⟩ := exists_of_findSome?_eq_some found
  refine findSome?_optionalWord_trailing (by decide) member
    (notStarts_of_eitherOrder? (by decide) success known) ?_ (eitherOrder?_append_trailing oneLine success)
  rintro rfl
  cases success

theorem readParts?_append_trailing (oneLine : '\n' ∉ text) {parts : Parts}
    (known : ∀ entry ∈ parts.entry, entry.letters ⊆ FileAccess.alphabet)
    (found : readParts? s = some (parts, "")) :
    readParts? (s ++ trailing text) = some (parts, kept text) := by
  obtain ⟨owner, t, member, reading⟩ := readParts?_cases found
  have nonempty : t ≠ [] := by
    rintro rfl
    rcases reading with ⟨_, ⟨⟩, _⟩ | ⟨_, _, ⟨⟩, _⟩
  have distinct : Distinct "owner".toList := by decide
  have apart : Apart "owner".toList "file".toList := by decide
  rcases reading with ⟨u, read, ending, rfl⟩ | ⟨entry, notAll, isEntry, rfl⟩
  · refine findSome?_optionalWord_trailing (by decide) member
      (apart.notStarts (prefix_of_after? read)) nonempty ?_
    simp [after?_append_right read, commaEnding?_append_trailing oneLine ending]
  · have knownHere := known entry rfl
    refine findSome?_optionalWord_trailing (by decide) member
      (notStarts_of_pathWithAccess? distinct apart isEntry knownHere) nonempty ?_
    have notAllHere : (after? "file" (t ++ trailing text)).bind commaEnding? = none := by
      by_cases word : "file".toList <+: t
      · obtain ⟨u, rfl⟩ := word
        rw [after?_append, bind_some] at notAll
        rw [append_assoc, after?_append, bind_some]
        exact commaEnding?_append_trailing_eq_none notAll
      · rw [after?_eq_none (notStarts_trailing (by decide) word), bind_none]
    simp only [notAllHere, pathWithAccess?_append_trailing oneLine knownHere isEntry, map_none,
      none_or, map_some]

end File

theorem Rule.file_commented : TakesComment .file := by
  intro line text rule oneLine plain success
  simp only [readAs?] at success ⊢
  refine readBy_commented ?_ success plain fun statement found bare made => ⟨statement.parts, ?_, made⟩
  · intro base other parts body audit deny word made
    simpa [File.ofParts, audit, deny] using made
  · obtain ⟨file, isFile, _⟩ := Checked.map_eq_ok.mp made
    obtain ⟨s, behind, readable⟩ := File.exists_behind_of_read? found isFile
    rw [bare] at readable
    have nonempty : s ≠ [] := by
      rintro rfl
      cases readable
    have commented : Behind (line ++ trailing text) _ _ (s ++ trailing text) := behind.append_trailing nonempty
    exact commented.withModifiers_eq
      (File.readParts?_append_trailing oneLine (File.letters_subset_alphabet isFile) readable)

end ArmorPolicy
