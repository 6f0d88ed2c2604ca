import ArmorPolicy.Proofs.Line.Path
import ArmorPolicy.Proofs.Rule.Dispatch

/-!
# Canonical lines of aliases

A path in an alias may hold blanks.  It ends before the first arrow with a blank before it, and the
target before the first comma that can end the line.  Neither stands inside of what was read, so
that the same ends are found in the canonical line, with or without quotation marks.
-/

namespace ArmorPolicy

open List Option Text Line

variable {aliasing : Aliasing} {base : RuleBase}

namespace Aliasing

variable {s suffix rest target : List Char} {comment : String}

def Unarrowed (s : List Char) : Prop :=
  ∀ c rest, isBlank c = true → ¬c :: '-' :: '>' :: rest <:+ s

instance (s : List Char) : Decidable (Unarrowed s) := by
  refine decidable_of_iff (∀ suffix ∈ s.tails, suffix.head?.any isBlank = true → ¬['-', '>'] <+: suffix.tail) ?_
  constructor
  · intro none c rest blank isSuffix
    exact none _ ((mem_tails _ _).mpr isSuffix) (by simpa using blank) ⟨rest, rfl⟩
  · intro unarrowed suffix member blank arrow
    obtain ⟨rest, behind⟩ := arrow
    cases suffix with
    | nil => cases blank
    | cons c tail =>
      obtain rfl : '-' :: '>' :: rest = tail := behind
      exact unarrowed c rest (by simpa using blank) ((mem_tails _ _).mp member)

theorem unarrowed_quoted (unarrowed : Unarrowed s) : Unarrowed ('"' :: (s ++ ['"'])) := by
  intro c rest blank isSuffix
  have first : ([c, '-'] ++ ['>']).head? ≠ some '"' := by
    rintro ⟨⟩
    cases blank
  obtain ⟨start, inner⟩ := suffix_quoted first (by decide) isSuffix
  exact unarrowed c start blank inner

/-! ## Targets -/

theorem uncommented_of_earlier
    (earlier : ∀ start suffix, s = start ++ suffix → suffix ≠ [] → commaEnding? (suffix ++ rest) = none)
    (oneLine : '\n' ∉ s ++ rest) : Uncommented s := by
  rintro between more blank ⟨start, rfl⟩
  have unread := earlier start _ rfl (by simp)
  have noted : (ending? ('#' :: (more ++ rest))).isSome :=
    Option.isSome_of_eq_some (ending?_sign fun newline => oneLine (by simp [mem_append.mp newline]))
  rw [cons_append, commaEnding?_comma, append_assoc, ending?_blanks blank, cons_append] at unread
  rw [unread] at noted
  cases noted

theorem uncommented_append_iff {start : List Char} (noComma : ',' ∉ start) :
    Uncommented (start ++ s) ↔ Uncommented s := by
  constructor
  · intro uncommented between rest blank isSuffix
    exact uncommented between rest blank (isSuffix.trans (suffix_append _ _))
  · intro uncommented between rest blank isSuffix
    rcases suffix_or_suffix_of_suffix isSuffix (suffix_append start s) with inside | ⟨left, split⟩
    · exact uncommented between rest blank inside
    · cases left with
      | nil => exact uncommented between rest blank (split ▸ suffix_refl _)
      | cons c left =>
        obtain ⟨front, whole⟩ := isSuffix
        rw [← split, ← append_assoc] at whole
        refine noComma ?_
        rw [← append_cancel_right whole]
        simp [(List.cons.inj split).1]

section Parts

variable {α : Type} {read : List Char → Option α} {value : α} {part : List Char}

theorem longest?_shortestPart?_append (tidy : Tidy part)
    (earlier : ∀ suffix, suffix <:+ part → suffix ≠ [] → read (suffix ++ rest) = none)
    (found : read rest = some value) :
    longest? isBlank (shortestPart? notNewline read) (' ' :: (part ++ rest)) = some ([' '], part, value) := by
  obtain ⟨c, tail, rfl, solid⟩ := tidy.starts
  obtain ⟨first, allowed⟩ := forall_mem_cons.mp (forall_notNewline_iff.mpr tidy.oneLine)
  have space : ∀ d ∈ [' '], isBlank d := by decide
  have stops : ∀ d ∈ (c :: (tail ++ rest)).head?, isBlank d = false := by
    rintro _ ⟨⟩
    exact isBlank_eq_false_iff.mpr solid
  refine longest?_append_stop space stops
    (shortestPart?_eq_some_iff.mpr ⟨c, tail ++ rest, tail, rfl, rfl, first, ?_⟩)
  refine shortest?_append allowed (fun start suffix split nonempty => ?_) found
  exact earlier suffix ⟨c :: start, by rw [split]; rfl⟩ nonempty

theorem longest?_shortestPart?_eq_some {blanks : List Char}
    (found : longest? isBlank (shortestPart? notNewline read) s = some (blanks, part, value)) :
    ∃ c tail behind, part = c :: tail ∧ s = blanks ++ (part ++ behind) ∧ read behind = some value ∧
      ∀ start suffix, tail = start ++ suffix → suffix ≠ [] → read (suffix ++ behind) = none := by
  obtain ⟨t, rfl, _, cut, _⟩ := longest?_eq_some found
  obtain ⟨c, t, tail, rfl, rfl, _, inner⟩ := shortestPart?_eq_some_iff.mp cut
  obtain ⟨behind, rfl, _, success, earlier⟩ := shortest?_eq_some inner
  exact ⟨c, tail, behind, rfl, rfl, success, earlier⟩

theorem endsSolid_of_earlier
    (earlier : ∀ start suffix, part = start ++ suffix → suffix ≠ [] → read (suffix ++ rest) = none)
    (further : ∀ c, isBlank c → (read (c :: rest)).isSome) : EndsSolid ('/' :: part) := by
  rcases eq_nil_or_concat part with rfl | ⟨start, last, shape⟩
  · exact ⟨[], '/', rfl, by decide⟩
  · rw [concat_eq_append] at shape
    refine ⟨'/' :: start, last, by rw [shape]; rfl, isBlank_eq_false_iff.mp ?_⟩
    cases blank : isBlank last with
    | false => rfl
    | true =>
      have readable := further last blank
      rw [← singleton_append, earlier start [last] shape (by simp)] at readable
      cases readable

end Parts

theorem destination?_append (tidy : Tidy s) (uncommented : Uncommented s) (valid : TrailingComment comment) :
    destination? (' ' :: (s ++ ',' :: comment.toList)) = some (s, comment) := by
  have found := longest?_shortestPart?_append tidy
    (fun _ isSuffix nonempty => commaEnding?_of_uncommented uncommented tidy.ends isSuffix nonempty _)
    (commaEnding?_of_trailingComment valid)
  simp only [destination?, found, map_some]

/-- What is read as a target ends with a character that is not blank, and no comma in it ends the
line. -/
theorem destination?_eq_some (oneLine : '\n' ∉ s) (found : destination? s = some (target, comment)) :
    target ⊆ s ∧ TrailingComment comment ∧ (target.head? = some '/' → Tidy target ∧ Uncommented target) := by
  obtain ⟨⟨blanks, target, comment⟩, cut, ⟨⟩⟩ := map_eq_some_iff.mp found
  obtain ⟨c, tail, behind, rfl, rfl, ending, earlier⟩ := longest?_shortestPart?_eq_some cut
  refine ⟨subset_append_of_subset_right _ (subset_append_left _ _), trailingComment_of_commaEnding? ending,
    fun slash => ?_⟩
  obtain rfl : c = '/' := Option.some.inj slash
  simp only [mem_append, not_or] at oneLine
  refine ⟨⟨⟨'/', tail, rfl, by decide⟩, endsSolid_of_earlier earlier fun d blank => ?_, oneLine.2.1⟩, ?_⟩
  · rw [← singleton_append, commaEnding?_blanks (by simpa using blank), ending]
    rfl
  · have inside : Uncommented tail := by
      refine uncommented_of_earlier earlier fun newline => ?_
      rcases mem_append.mp newline with inTail | inBehind
      · exact oneLine.2.1 (mem_cons_of_mem _ inTail)
      · exact oneLine.2.2 inBehind
    have slash : Uncommented (['/'] ++ tail) := (uncommented_append_iff (by decide)).mpr inside
    exact slash

/-! ## Paths -/

theorem arrow?_eq_some_iff :
    arrow? s = some (target, comment) ↔
      ∃ c blanks rest, isBlank c ∧ (∀ d ∈ blanks, isBlank d) ∧
        s = c :: (blanks ++ '-' :: '>' :: rest) ∧ destination? rest = some (target, comment) := by
  constructor
  · intro found
    obtain ⟨rest, pointed, reached⟩ := bind_eq_some_iff.mp found
    obtain ⟨t, blanked, after⟩ := bind_eq_some_iff.mp pointed
    rw [after?_eq_some_iff] at after
    obtain ⟨c, u, rfl, blank⟩ := exists_blank_of_afterBlanks? blanked
    rw [afterBlanks?_cons blank] at blanked
    obtain ⟨blanks, split, allBlank⟩ := exists_blanks u
    rw [Option.some.inj blanked, after] at split
    exact ⟨c, blanks, rest, blank, allBlank, by rw [split]; rfl, reached⟩
  · rintro ⟨c, blanks, rest, blank, allBlank, rfl, found⟩
    have arrow : trimStart ('-' :: '>' :: rest) = '-' :: '>' :: rest := trimStart_cons_of_solid (by decide) _
    have pointed : after? "->" ('-' :: '>' :: rest) = some rest := after?_append "->" rest
    simp [arrow?, afterBlanks?, blank, trimStart_append_of_blank allBlank, arrow, pointed, found]

theorem arrow?_of_unarrowed (unarrowed : Unarrowed s) (ends : EndsSolid s) (isSuffix : suffix <:+ s)
    (nonempty : suffix ≠ []) (rest : List Char) : arrow? (suffix ++ ' ' :: rest) = none := by
  cases found : arrow? (suffix ++ ' ' :: rest) with
  | none => rfl
  | some result =>
    obtain ⟨target, comment⟩ := result
    obtain ⟨c, blanks, more, blank, allBlank, split, _⟩ := arrow?_eq_some_iff.mp found
    obtain ⟨before, d, tail, rfl, beforeBlank, solid⟩ := exists_solid (ends.of_suffix isSuffix nonempty)
    have behind := congrArg trimStart split
    have arrow : trimStart ('-' :: '>' :: more) = '-' :: '>' :: more := trimStart_cons_of_solid (by decide) _
    rw [append_assoc, trimStart_append_of_blank beforeBlank, cons_append,
      trimStart_cons_of_solid solid, trimStart_cons_of_blank blank, trimStart_append_of_blank allBlank,
      arrow] at behind
    obtain ⟨rfl, head⟩ := List.cons.inj behind
    cases tail with
    | nil => exact absurd (List.cons.inj head).1 (by decide)
    | cons e tail =>
      obtain ⟨rfl, _⟩ := List.cons.inj head
      rcases eq_nil_or_concat before with rfl | ⟨start, last, rfl⟩
      · rw [← (List.cons.inj split).1] at blank
        cases blank
      · rw [concat_eq_append] at isSuffix beforeBlank
        refine absurd ?_ (unarrowed last tail (beforeBlank last (by simp)))
        rw [append_assoc] at isSuffix
        exact (suffix_append start _).trans isSuffix

theorem destination?_isSome_iff :
    (destination? s).isSome ↔ ∃ blanks part rest, s = blanks ++ (part ++ rest) ∧
      (∀ c ∈ blanks, isBlank c) ∧ part ≠ [] ∧ (∀ c ∈ part, notNewline c) ∧
      (commaEnding? rest).isSome := by
  simp only [destination?, isSome_map, longest?_isSome_iff, shortestPart?_isSome_iff]
  constructor
  · rintro ⟨blanks, _, rfl, blank, part, rest, rfl, target⟩
    exact ⟨blanks, part, rest, rfl, blank, target⟩
  · rintro ⟨blanks, part, rest, rfl, blank, target⟩
    exact ⟨blanks, part ++ rest, rfl, blank, part, rest, rfl, target⟩

theorem destination?_isSome {start t : List Char} (oneLine : '\n' ∉ start ++ t)
    (found : (destination? t).isSome) : (destination? (start ++ t)).isSome := by
  obtain ⟨blanks, part, rest, rfl, _, nonempty, _, ends⟩ := destination?_isSome_iff.mp found
  refine destination?_isSome_iff.mpr ⟨[], start ++ blanks ++ part, rest, by simp, by simp, by simp [nonempty],
    forall_notNewline_iff.mpr fun newline => oneLine ?_, ends⟩
  rw [← append_assoc, ← append_assoc]
  exact mem_append_left _ newline

/-! ## Parts -/

def readParts? (s : List Char) : Option (Parts × String) :=
  (longestPart? isBlank (shortestPart? notNewline arrow?) s).map
    fun (_, path, target, comment) => (⟨path, target⟩, comment)

/-- The pieces are such that their text can be read again. -/
structure Parts.Readable (parts : Parts) : Prop where
  path : Tidy parts.path
  unarrowed : Unarrowed parts.path
  target : Tidy parts.target
  uncommented : Uncommented parts.target

instance (parts : Parts) : Decidable parts.Readable :=
  decidable_of_iff
    (Tidy parts.path ∧ Unarrowed parts.path ∧ Tidy parts.target ∧ Uncommented parts.target)
    ⟨fun ⟨path, unarrowed, target, uncommented⟩ => ⟨path, unarrowed, target, uncommented⟩,
      fun ⟨path, unarrowed, target, uncommented⟩ => ⟨path, unarrowed, target, uncommented⟩⟩

def Parts.text (parts : Parts) : List Char :=
  ' ' :: (parts.path ++ ' ' :: '-' :: '>' :: ' ' :: parts.target)

theorem Parts.Readable.readParts?_text {parts : Parts} (readable : parts.Readable)
    (valid : TrailingComment comment) :
    readParts? (parts.text ++ ',' :: comment.toList) = some (parts, comment) := by
  obtain ⟨path, target⟩ := parts
  obtain ⟨tidy, unarrowed, targetTidy, uncommented⟩ := readable
  simp only at tidy unarrowed targetTidy uncommented
  have arrow : arrow? (' ' :: '-' :: '>' :: ' ' :: (target ++ ',' :: comment.toList)) =
      some (target, comment) :=
    arrow?_eq_some_iff.mpr ⟨' ', [], _, by decide, by simp, rfl,
      destination?_append targetTidy uncommented valid⟩
  have found := longestPart?_eq_some_iff.mpr ⟨cons_ne_nil ' ' [], longest?_shortestPart?_append tidy
    (fun _ isSuffix nonempty => arrow?_of_unarrowed unarrowed tidy.ends isSuffix nonempty _) arrow⟩
  have shape : Parts.text ⟨path, target⟩ ++ ',' :: comment.toList =
      ' ' :: (path ++ ' ' :: '-' :: '>' :: ' ' :: (target ++ ',' :: comment.toList)) := by
    simp [text]
  rw [shape, readParts?, found]
  rfl

theorem read?_eq : read? = withoutModifiers fun s => (after? "alias" s).bind readParts? := by
  unfold read? readParts?
  congr 1
  funext s
  cases after? "alias" s <;> rfl

theorem readParts?_eq_some {parts : Parts} (oneLine : '\n' ∉ s)
    (found : readParts? s = some (parts, comment)) :
    parts.path ⊆ s ∧ parts.target ⊆ s ∧ TrailingComment comment ∧
      (parts.path.head? = some '/' → parts.target.head? = some '/' → parts.Readable) := by
  obtain ⟨⟨blanks, path, target, comment⟩, cut, ⟨⟩⟩ := map_eq_some_iff.mp found
  obtain ⟨_, cut⟩ := longestPart?_eq_some_iff.mp cut
  obtain ⟨c, tail, _, rfl, rfl, arrow, earlier⟩ := longest?_shortestPart?_eq_some cut
  obtain ⟨b, bs, rest, blank, allBlank, rfl, reached⟩ := arrow?_eq_some_iff.mp arrow
  have restWithin : rest ⊆ blanks ++ (c :: tail ++ b :: (bs ++ '-' :: '>' :: rest)) := by
    intro d member
    simp [member]
  obtain ⟨inRest, trailing, targetShape⟩ :=
    destination?_eq_some (fun newline => oneLine (restWithin newline)) reached
  have within : c :: tail ⊆ blanks ++ (c :: tail ++ b :: (bs ++ '-' :: '>' :: rest)) :=
    subset_append_of_subset_right _ (subset_append_left _ _)
  refine ⟨within, Subset.trans inRest restWithin, trailing, fun pathSlash targetSlash => ?_⟩
  obtain rfl : c = '/' := Option.some.inj pathSlash
  obtain ⟨targetTidy, uncommented⟩ := targetShape targetSlash
  refine ⟨⟨⟨'/', tail, rfl, by decide⟩, endsSolid_of_earlier earlier fun d dBlank => ?_,
    fun newline => oneLine (within newline)⟩, ?_, targetTidy, uncommented⟩
  · refine isSome_of_eq_some (arrow?_eq_some_iff.mpr ⟨d, b :: bs, rest, dBlank, ?_, rfl, reached⟩)
    exact forall_mem_cons.mpr ⟨blank, allBlank⟩
  · intro d more dBlank isSuffix
    rcases suffix_cons_iff.mp isSuffix with whole | ⟨start, split⟩
    · rw [(List.cons.inj whole).1] at dBlank
      cases dBlank
    · have unread := earlier start _ split.symm (by simp)
      have further : (destination? ((more ++ b :: (bs ++ ['-', '>'])) ++ rest)).isSome := by
        refine destination?_isSome (fun newline => oneLine ?_) (isSome_of_eq_some reached)
        rw [← split]
        simp only [mem_append, mem_cons, not_mem_nil, or_false] at newline ⊢
        grind
      obtain ⟨⟨otherTarget, otherComment⟩, further⟩ := isSome_iff_exists.mp further
      have readable : arrow? ((d :: '-' :: '>' :: more) ++ b :: (bs ++ '-' :: '>' :: rest)) =
          some (otherTarget, otherComment) :=
        arrow?_eq_some_iff.mpr ⟨d, [], _, dBlank, by simp, by simp, further⟩
      rw [unread] at readable
      cases readable

theorem make_eq_ok {path target : String} (made : make base path target = .ok aliasing) :
    aliasing = ⟨path, target⟩ ∧ path.toList.head? = some '/' ∧ target.toList.head? = some '/' := by
  simp only [make, Checked.bind_eq_ok, refuse, reject, Checked.unless_eq_ok] at made
  obtain ⟨_, _, _, path, _, target, ⟨⟩⟩ := made
  exact ⟨rfl, by simpa using path, by simpa using target⟩

theorem ofParts_eq_ok {parts : Parts} (pathMark : '"' ∉ parts.path)
    (targetMark : '"' ∉ parts.target) (made : ofParts base parts = .ok aliasing) :
    parts = ⟨aliasing.path.toList, aliasing.target.toList⟩ ∧
      parts.path.head? = some '/' ∧ parts.target.head? = some '/' := by
  unfold ofParts at made
  rw [stripQuotes_of_noMark pathMark, stripQuotes_of_noMark targetMark] at made
  obtain ⟨rfl, path, target⟩ := make_eq_ok made
  rw [String.toList_ofList] at path target
  exact ⟨by simp, path, target⟩

def written (aliasing : Aliasing) : Parts :=
  ⟨(quoteIfNeeded aliasing.path).toList, (quoteIfNeeded aliasing.target).toList⟩

theorem text_toList (aliasing : Aliasing) : aliasing.text.toList = "alias".toList ++ aliasing.written.text := by
  simp [text, Parts.text, written]

theorem readable_written (readable : Parts.Readable ⟨aliasing.path.toList, aliasing.target.toList⟩) :
    aliasing.written.Readable := by
  obtain ⟨path, unarrowed, target, uncommented⟩ := readable
  exact ⟨quoteIfNeeded_of path (tidy_quoted path),
    quoteIfNeeded_of unarrowed (unarrowed_quoted unarrowed),
    quoteIfNeeded_of target (tidy_quoted target),
    quoteIfNeeded_of uncommented (uncommented_quoted uncommented)⟩

/-- What is written for the paths is read as them. -/
def Legible (aliasing : Aliasing) : Prop :=
  aliasing.written.Readable ∧ '"' ∉ aliasing.path.toList ∧ '"' ∉ aliasing.target.toList

instance (aliasing : Aliasing) : Decidable aliasing.Legible :=
  inferInstanceAs (Decidable (_ ∧ _))

theorem Legible.ofParts_written (legible : aliasing.Legible) :
    ofParts base aliasing.written = make base aliasing.path aliasing.target := by
  simp only [ofParts, written, stripQuotes_quoteIfNeeded legible.2.1, stripQuotes_quoteIfNeeded legible.2.2]

end Aliasing

theorem Aliasing.Parts.Readable.oneLine {parts : Parts} (readable : parts.Readable) : '\n' ∉ parts.text := by
  simp [text, readable.path.oneLine, readable.target.oneLine]

namespace Rule

variable {rule : Rule} {line : List Char} {aliasing : Aliasing}

theorem legible_of_aliasing (oneLine : '\n' ∉ line) (plain : '"' ∉ line)
    (success : readAs? .aliasing line = some (.ok rule)) (body : rule.body = .aliasing aliasing) :
    aliasing.Legible := by
  simp only [readAs?, Aliasing.read?_eq] at success
  obtain ⟨parts, readable, made, _⟩ := readBy_withoutModifiers_eq_ok success
  obtain ⟨s, behind, found⟩ := bind_eq_some_iff.mp readable
  obtain ⟨_, isAlias, shape⟩ := Checked.map_eq_ok.mp made
  cases shape.trans body
  have within : s ⊆ line := ((suffix_of_after? behind).sublist.trans (trimStart_sublist line)).subset
  obtain ⟨inPath, inTarget, _, valid⟩ :=
    Aliasing.readParts?_eq_some (fun newline => oneLine (within newline)) found
  have pathMark : '"' ∉ parts.path := fun mark => plain (within (inPath mark))
  have targetMark : '"' ∉ parts.target := fun mark => plain (within (inTarget mark))
  obtain ⟨rfl, pathSlash, targetSlash⟩ := Aliasing.ofParts_eq_ok pathMark targetMark isAlias
  exact ⟨Aliasing.readable_written (valid pathSlash targetSlash), pathMark, targetMark⟩

theorem recovered_aliasing (oneLine : '\n' ∉ line) (success : readAs? .aliasing line = some (.ok rule))
    (body : rule.body = .aliasing aliasing) (legible : aliasing.Legible) : rule.Restored line := by
  have kind := kind_of_readAs? success
  have comma : rule.kind.terminator = "," := by
    rw [kind]
    rfl
  simp only [readAs?, Aliasing.read?_eq] at success
  obtain ⟨parts, readable, made, stated, audit, decision⟩ := readBy_withoutModifiers_eq_ok success
  obtain ⟨s, behind, found⟩ := bind_eq_some_iff.mp readable
  obtain ⟨_, isAlias, shape⟩ := Checked.map_eq_ok.mp made
  cases shape.trans body
  have within : s ⊆ line := ((suffix_of_after? behind).sublist.trans (trimStart_sublist line)).subset
  obtain ⟨_, _, comment, _⟩ := Aliasing.readParts?_eq_some (fun newline => oneLine (within newline)) found
  have bodyText : rule.body.text.toList = "alias".toList ++ aliasing.written.text := by
    rw [← shape]
    exact aliasing.text_toList
  have keyworded : rule.Keyworded line :=
    keyworded_of_comma (fun _ => modifiers_eq_empty audit decision) comma (by rw [kind]; decide) bodyText
      stated comment fun _ => legible.1.oneLine
  have again : Aliasing.read? rule.canonical.toList =
      some ⟨rule.base.audit, rule.base.decision, rule.base.comment, aliasing.written⟩ := by
    rw [Aliasing.read?_eq]
    refine keyworded.shows.withoutModifiers_canonical keyworded.starts audit decision ?_
    rw [statementText_of_comma comma bodyText, after?_append, bind_some]
    exact legible.1.readParts?_text comment
  refine keyworded.recovered_rewritten kind (readAs?.eq_2 _) again ?_
  have same : Aliasing.ofParts rule.rewritten.base aliasing.written = .ok aliasing := by
    rw [legible.ofParts_written]
    obtain ⟨rfl, _⟩ := Aliasing.make_eq_ok isAlias
    exact isAlias
  rw [same, ← shape]
  rfl

end Rule

end ArmorPolicy
