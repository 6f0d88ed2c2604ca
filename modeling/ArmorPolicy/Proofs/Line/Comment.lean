import ArmorPolicy.Proofs.Line.Path

/-!
# A comment behind a line

A comment that is put behind a line changes none of its pieces.  Words, quotations and paths end where
they ended, an ending takes the comment in, and no piece that could not end the line before can end
it now.
-/

namespace ArmorPolicy.Line

open List Option Text

variable {c : Char} {p : Char → Bool} {blanks inner rest s start suffix : List Char} {word : String}

def trailing (text : List Char) : List Char := ' ' :: '#' :: text

variable {text : List Char}

/-! ## Words and blanks -/

theorem trimStart_append (nonempty : trimStart s ≠ []) (t : List Char) :
    trimStart (s ++ t) = trimStart s ++ t := by
  obtain ⟨blanks, split, blank⟩ := exists_blanks s
  have solid := startsSolid_trimStart nonempty
  calc trimStart (s ++ t) = trimStart (blanks ++ (trimStart s ++ t)) := by
        rw [← append_assoc, ← split]
    _ = trimStart s ++ t := by
        rw [trimStart_append_of_blank blank, trimStart_of_startsSolid (solid.append t)]

theorem eq_trimStart_of_afterBlanks? (found : afterBlanks? s = some rest) : rest = trimStart s := by
  obtain ⟨c, t, rfl, blank⟩ := exists_blank_of_afterBlanks? found
  rw [afterBlanks?_cons blank] at found
  rw [← Option.some.inj found, trimStart_cons_of_blank blank]

theorem exists_blanks_of_afterBlanks? (found : afterBlanks? s = some rest) :
    ∃ blanks, blanks ≠ [] ∧ (∀ c ∈ blanks, isBlank c) ∧ s = blanks ++ rest := by
  obtain ⟨c, t, rfl, blank⟩ := exists_blank_of_afterBlanks? found
  obtain ⟨blanks, split, all⟩ := exists_blanks t
  rw [afterBlanks?_cons blank] at found
  refine ⟨c :: blanks, by simp, forall_mem_cons.mpr ⟨blank, all⟩, ?_⟩
  rw [← Option.some.inj found, cons_append, ← split]

theorem afterBlanks?_blanks (nonempty : blanks ≠ []) (blank : ∀ c ∈ blanks, isBlank c)
    (starts : StartsSolid rest) : afterBlanks? (blanks ++ rest) = some rest := by
  obtain ⟨c, blanks, rfl⟩ := exists_cons_of_ne_nil nonempty
  rw [forall_mem_cons] at blank
  rw [cons_append, afterBlanks?_cons blank.1, trimStart_append_of_blank blank.2,
    trimStart_of_startsSolid starts]

theorem afterBlanks?_append (found : afterBlanks? s = some rest) (nonempty : rest ≠ [])
    (t : List Char) : afterBlanks? (s ++ t) = some (rest ++ t) := by
  obtain ⟨c, u, rfl, blank⟩ := exists_blank_of_afterBlanks? found
  rw [afterBlanks?_cons blank] at found
  cases found
  rw [cons_append, afterBlanks?_cons blank, trimStart_append nonempty]

theorem after?_append_right (found : after? word s = some rest) (t : List Char) :
    after? word (s ++ t) = some (rest ++ t) := by
  rw [after?_eq_some_iff] at found ⊢
  rw [found, append_assoc]

theorem afterWord?_append_right (found : afterWord? word s = some rest) (nonempty : rest ≠ [])
    (t : List Char) : afterWord? word (s ++ t) = some (rest ++ t) := by
  obtain ⟨u, read, blanks⟩ := bind_eq_some_iff.mp found
  exact bind_eq_some_iff.mpr ⟨u ++ t, after?_append_right read t, afterBlanks?_append blanks nonempty t⟩

theorem upTo?_append_right {stop : Char} (found : upTo? stop s = some (inner, rest)) (t : List Char) :
    upTo? stop (s ++ t) = some (inner, rest ++ t) := by
  obtain ⟨rfl, absent⟩ := upTo?_eq_some_iff.mp found
  exact upTo?_eq_some_iff.mpr ⟨by simp, absent⟩

theorem start_trailing (split : s ++ trailing text = start ++ suffix) :
    (∃ u, suffix = u ++ trailing text ∧ s = start ++ u) ∨ start = s ++ [' '] ∧ suffix = '#' :: text ∨
      ∃ middle, start = s ++ ' ' :: '#' :: middle ∧ text = middle ++ suffix := by
  rcases append_eq_append_iff.mp split with ⟨middle, rfl, behind⟩ | ⟨u, rfl, rfl⟩
  · match middle, behind with
    | [], behind => exact .inl ⟨[], by simpa using behind.symm, by simp⟩
    | [c], behind =>
      obtain ⟨⟩ : ' ' :: '#' :: text = c :: suffix := behind
      exact .inr (.inl ⟨rfl, rfl⟩)
    | c :: d :: middle, behind =>
      obtain ⟨⟩ : ' ' :: '#' :: text = c :: d :: (middle ++ suffix) := behind
      exact .inr (.inr ⟨middle, rfl, rfl⟩)
  · exact .inl ⟨u, rfl, rfl⟩

theorem exists_of_stop {t : List Char} (member : c ∈ s) (stops : p c = false)
    (split : s ++ t = start ++ suffix) (all : ∀ c ∈ start, p c) :
    ∃ u, suffix = u ++ t ∧ s = start ++ u := by
  rcases append_eq_append_iff.mp split with ⟨middle, rfl, behind⟩ | ⟨u, rfl, rfl⟩
  · rw [all c (mem_append_left _ member)] at stops
    cases stops
  · exact ⟨u, rfl, rfl⟩

theorem exists_of_endsSolid (split : s ++ trailing text = start ++ suffix) (ends : EndsSolid start)
    (noSign : '#' ∉ start) : ∃ u, suffix = u ++ trailing text ∧ s = start ++ u := by
  rcases start_trailing split with inside | ⟨rfl, _⟩ | ⟨_, rfl, _⟩
  · exact inside
  · exact absurd ends (not_endsSolid_of_blank (by decide) s)
  · exact absurd (by simp) noSign

theorem takeWhile_append_trailing (stops : p ' ' = false) (s : List Char) :
    (s ++ trailing text).takeWhile p = s.takeWhile p := by
  induction s with
  | nil => simp [trailing, stops]
  | cons c s ih =>
    by_cases taken : p c
    · simp [taken, ih]
    · simp [taken]

theorem dropWhile_append_trailing (stops : p ' ' = false) (s : List Char) :
    (s ++ trailing text).dropWhile p = s.dropWhile p ++ trailing text := by
  induction s with
  | nil => simp [trailing, stops]
  | cons c s ih =>
    by_cases taken : p c
    · simp [taken, ih]
    · simp [taken]

theorem notStarts_trailing {word : List Char} (solid : ∀ c ∈ word, isSolid c)
    (absent : ¬word <+: s) : ¬word <+: s ++ trailing text := by
  rintro ⟨suffix, split⟩
  have stops : isSolid ' ' = false := by decide
  obtain ⟨u, _, rfl⟩ := exists_before_stop stops split.symm solid
  exact absent (prefix_append word u)

/-! ### Modifiers -/

theorem mem_optionalWord_append {found : Bool} (member : (found, rest) ∈ optionalWord word s)
    (nonempty : rest ≠ []) (t : List Char) : (found, rest ++ t) ∈ optionalWord word (s ++ t) := by
  rw [mem_optionalWord_iff] at member ⊢
  rcases member with ⟨rfl, rfl⟩ | ⟨rfl, read⟩
  · exact .inl ⟨rfl, rfl⟩
  · exact .inr ⟨rfl, afterWord?_append_right read nonempty t⟩

theorem mem_decisionChoices_append {decision : Decision}
    (member : (decision, rest) ∈ decisionChoices s) (nonempty : rest ≠ []) (t : List Char) :
    (decision, rest ++ t) ∈ decisionChoices (s ++ t) := by
  rw [mem_decisionChoices_iff] at member ⊢
  rcases member with ⟨rfl, rfl⟩ | ⟨rfl, read⟩ | ⟨rfl, read⟩
  · exact .inl ⟨rfl, rfl⟩
  · exact .inr (.inl ⟨rfl, afterWord?_append_right read nonempty t⟩)
  · exact .inr (.inr ⟨rfl, afterWord?_append_right read nonempty t⟩)

theorem Behind.append_trailing {line : List Char} {audit : Bool} {decision : Decision}
    (behind : Behind line audit decision s) (nonempty : s ≠ []) :
    Behind (line ++ trailing text) audit decision (s ++ trailing text) := by
  have nonemptyLine : trimStart line ≠ [] := behind.suffix.ne_nil nonempty
  obtain ⟨unmodified, t, audits, decisions⟩ := behind
  have solid : ∀ word ∈ modifierWords, ∀ c ∈ word.toList, isSolid c := by decide
  have nonemptyRest : t ≠ [] := (mem_decisionChoices decisions).1.ne_nil nonempty
  refine ⟨fun word modifier => notStarts_trailing (solid word modifier) (unmodified word modifier),
    t ++ trailing text, ?_, mem_decisionChoices_append decisions nonempty _⟩
  rw [trimStart_append nonemptyLine]
  exact mem_optionalWord_append audits nonemptyRest _

/-! ## Endings -/

theorem blank_of_ending? (found : ending? s = some "") : ∀ c ∈ s, isBlank c := by
  obtain ⟨blanks, rest, rfl, blank, ⟨rfl, _⟩ | ⟨_, _, impossible, _⟩⟩ := ending?_eq_some found
  · simpa using blank
  · cases impossible

section Endings

theorem ending?_blanks_trailing (oneLine : '\n' ∉ text) (blank : ∀ c ∈ blanks, isBlank c) :
    ending? (blanks ++ trailing text) = some (kept text) := by
  rw [ending?_blanks blank, trailing, ← singleton_append, ending?_blanks (by decide), ending?_sign oneLine]

theorem ending?_append_trailing (oneLine : '\n' ∉ text) (found : ending? s = some "") :
    ending? (s ++ trailing text) = some (kept text) :=
  ending?_blanks_trailing oneLine (blank_of_ending? found)

theorem trimEnd_append_cons (solid : isSolid c) (first second : List Char) :
    trimEnd (first ++ c :: second) = first ++ trimEnd (c :: second) := by
  have nonempty : trimEnd (c :: second) ≠ [] := by simp [trimEnd_cons_of_solid solid]
  obtain ⟨blanks, split, blank⟩ := exists_blanks_behind (c :: second)
  rw [split, ← append_assoc, trimEnd_append_of_blanks blank, trimEnd_append_of_blanks blank,
    trimEnd_of_endsSolid ((endsSolid_trimEnd nonempty).append first),
    trimEnd_of_endsSolid (endsSolid_trimEnd nonempty)]

theorem ending?_append_trailing_eq_none (unread : ending? s = none) :
    ending? (s ++ trailing text) = none := by
  rcases blank_or_solid s with blank | ⟨blanks, c, rest, rfl, blank, solid⟩
  · rw [← append_nil s, ending?_blanks blank] at unread
    cases unread
  · rw [ending?_blanks blank] at unread
    rw [append_assoc, ending?_blanks blank, cons_append]
    by_cases sign : c = '#'
    · subst sign
      have newline : '\n' ∈ rest := by
        refine Decidable.byContradiction fun absent => ?_
        rw [ending?_sign absent] at unread
        cases unread
      have further : '\n' ∈ trimEnd (('#' :: rest) ++ [' '] ++ '#' :: text) := by
        rw [trimEnd_append_cons (by decide)]
        simp [newline]
      simpa [ending?, trimStart_cons_of_solid solid, trailing] using further
    · exact ending?_of_solid solid sign _

theorem commaEnding?_blanks_trailing (blank : ∀ c ∈ blanks, isBlank c) :
    commaEnding? (blanks ++ trailing text) = none := by
  rw [commaEnding?_blanks blank, trailing, ← singleton_append, commaEnding?_blanks (by decide)]
  exact commaEnding?_of_solid (by decide) (by decide) text

theorem commaEnding?_append_trailing (oneLine : '\n' ∉ text) (found : commaEnding? s = some "") :
    commaEnding? (s ++ trailing text) = some (kept text) := by
  obtain ⟨blanks, rest, rfl, blank, ending⟩ := commaEnding?_eq_some found
  rw [append_assoc, cons_append, commaEnding?_blanks blank, commaEnding?_comma,
    ending?_append_trailing oneLine ending]

theorem commaEnding?_append_trailing_eq_none (unread : commaEnding? s = none) :
    commaEnding? (s ++ trailing text) = none := by
  rcases blank_or_solid s with blank | ⟨blanks, c, rest, rfl, blank, solid⟩
  · exact commaEnding?_blanks_trailing blank
  · rw [commaEnding?_blanks blank] at unread
    rw [append_assoc, cons_append, commaEnding?_blanks blank]
    by_cases comma : c = ','
    · rw [comma, commaEnding?_comma] at unread ⊢
      exact ending?_append_trailing_eq_none unread
    · exact commaEnding?_of_solid solid comma _

theorem looseEnding?_append_trailing (oneLine : '\n' ∉ text) (found : looseEnding? s = some "") :
    looseEnding? (s ++ trailing text) = some (kept text) := by
  rw [looseEnding?_eq, or_eq_some_iff] at found ⊢
  exact found.imp (commaEnding?_append_trailing oneLine)
    (And.imp commaEnding?_append_trailing_eq_none (ending?_append_trailing oneLine))

theorem looseEnding?_append_trailing_eq_none (unread : looseEnding? s = none) :
    looseEnding? (s ++ trailing text) = none := by
  rw [looseEnding?_eq, or_eq_none_iff] at unread ⊢
  exact unread.imp commaEnding?_append_trailing_eq_none ending?_append_trailing_eq_none

end Endings

/-! ## Choices -/

section Choices

variable {α : Type} {read : List Char → Option α} {part : List Char} {value commented : α}
  (keeps : ∀ rest, read rest = some value → read (rest ++ trailing text) = some commented)
  (unread : ∀ rest, read rest = none → read (rest ++ trailing text) = none)

section Read
include keeps unread

theorem shortest?_append_trailing (found : shortest? p read s = some (part, value)) :
    shortest? p read (s ++ trailing text) = some (part, commented) := by
  obtain ⟨rest, rfl, allowed, success, earlier⟩ := shortest?_eq_some found
  rw [append_assoc]
  refine shortest?_append allowed ?_ (keeps rest success)
  intro start suffix split nonempty
  rw [← append_assoc]
  exact unread _ (earlier start suffix split nonempty)

theorem shortestPart?_append_trailing (found : shortestPart? p read s = some (part, value)) :
    shortestPart? p read (s ++ trailing text) = some (part, commented) := by
  obtain ⟨c, rest, inner, rfl, rfl, allowed, further⟩ := shortestPart?_eq_some_iff.mp found
  exact shortestPart?_eq_some_iff.mpr
    ⟨c, rest ++ trailing text, inner, rfl, rfl, allowed, shortest?_append_trailing keeps unread further⟩

theorem longest?_append_trailing (stops : p ' ' = false) (found : longest? p read s = some (part, value)) :
    longest? p read (s ++ trailing text) = some (part, commented) := by
  obtain ⟨rest, rfl, allowed, success, later⟩ := longest?_eq_some found
  rw [append_assoc]
  refine longest?_append allowed ?_ (keeps rest success)
  intro start suffix split nonempty all
  obtain ⟨u, rfl, rfl⟩ := exists_before_stop stops split all
  exact unread u (later start u rfl nonempty all)

theorem longestPart?_append_trailing (stops : p ' ' = false)
    (found : longestPart? p read s = some (part, value)) :
    longestPart? p read (s ++ trailing text) = some (part, commented) := by
  obtain ⟨nonempty, longest⟩ := longestPart?_eq_some_iff.mp found
  exact longestPart?_eq_some_iff.mpr ⟨nonempty, longest?_append_trailing keeps unread stops longest⟩

end Read

section Unread
include unread

theorem longest?_append_trailing_eq_none (stops : p ' ' = false) (nothing : longest? p read s = none) :
    longest? p read (s ++ trailing text) = none := by
  rw [longest?_eq_none_iff] at nothing ⊢
  intro start suffix split all
  obtain ⟨u, rfl, rfl⟩ := exists_before_stop stops split all
  exact unread u (nothing start u rfl all)

theorem longestPart?_append_trailing_eq_none (stops : p ' ' = false)
    (nothing : longestPart? p read s = none) : longestPart? p read (s ++ trailing text) = none := by
  cases s with
  | nil => simp [longestPart?, trailing, stops]
  | cons c s =>
    by_cases allowed : p c
    · simp only [longestPart?, allowed, if_true, behind, map_eq_none_iff, cons_append] at nothing ⊢
      exact longest?_append_trailing_eq_none unread stops nothing
    · simp [longestPart?, allowed]

end Unread

end Choices

theorem takeWhile_isBlank_append (solid : trimStart s ≠ []) (t : List Char) :
    (s ++ t).takeWhile isBlank = s.takeWhile isBlank := by
  obtain ⟨c, rest, starts, solidHere⟩ := startsSolid_trimStart solid
  have split : s = s.takeWhile isBlank ++ c :: rest := by
    rw [← starts]
    exact takeWhile_append_dropWhile.symm
  have all : ∀ c ∈ s.takeWhile isBlank, isBlank c := all_eq_true.mp all_takeWhile
  calc (s ++ t).takeWhile isBlank
      = (s.takeWhile isBlank ++ c :: (rest ++ t)).takeWhile isBlank := by
        rw [← cons_append, ← append_assoc, ← split]
    _ = s.takeWhile isBlank := takeWhile_append_of_stop all (isBlank_eq_false_iff.mpr solidHere)

theorem body?_append_trailing (oneLine : '\n' ∉ text) {allowed : Char → Bool} {body : List Char}
    (found : body? allowed s = some (body, "")) :
    body? allowed (s ++ trailing text) = some (body, kept text) := by
  have keeps : ∀ rest, commaEnding? rest = some "" → commaEnding? (rest ++ trailing text) = some (kept text) :=
    fun _ => commaEnding?_append_trailing oneLine
  have solid : trimStart s ≠ [] := by
    obtain ⟨⟨rest, rfl, ending⟩, _⟩ := body?_eq_some found
    exact ne_nil_of_mem
      (mem_trimStart_of_solid (mem_append_right _ (comma_of_commaEnding? ending)) (by decide))
  simp only [body?, takeWhile_isBlank_append solid, trimStart_append solid] at found ⊢
  split at found
  next none =>
    obtain ⟨_, ending, ⟨⟩⟩ := map_eq_some_iff.mp found
    rw [commaEnding?_append_trailing oneLine ending]
    rfl
  · obtain ⟨⟨part, _⟩, further, ⟨⟩⟩ := map_eq_some_iff.mp found
    rw [shortest?_append_trailing keeps (fun _ => commaEnding?_append_trailing_eq_none) further]
    rfl

/-! ## Targets -/

section Targets

variable {word target : List Char}

theorem target?_append_trailing (oneLine : '\n' ∉ text) (found : target? commaEnding? s = some (target, "")) :
    target? commaEnding? (s ++ trailing text) = some (target, kept text) := by
  have stops : isSolid ' ' = false := by decide
  have keeps : ∀ rest, commaEnding? rest = some "" → commaEnding? (rest ++ trailing text) = some (kept text) :=
    fun _ => commaEnding?_append_trailing oneLine
  have unread : ∀ rest, commaEnding? rest = none → commaEnding? (rest ++ trailing text) = none :=
    fun _ => commaEnding?_append_trailing_eq_none
  unfold target? at found ⊢
  cases plain : longestPart? isSolid commaEnding? s with
  | some result =>
    rw [plain] at found
    cases found
    rw [longestPart?_append_trailing keeps unread stops plain]
  | none =>
    rw [plain] at found
    rw [longestPart?_append_trailing_eq_none unread stops plain]
    obtain ⟨⟨quoted, rest⟩, isQuoted, further⟩ := bind_eq_some_iff.mp found
    obtain ⟨_, ending, ⟨⟩⟩ := map_eq_some_iff.mp further
    obtain ⟨marks, long⟩ := filter_eq_some_iff.mp isQuoted
    obtain ⟨inner, written, rfl, noMark⟩ := quotation?_eq_some_iff.mp marks
    refine bind_eq_some_iff.mpr ⟨(target, rest ++ trailing text), ?_, ?_⟩
    · exact filter_eq_some_iff.mpr ⟨quotation?_eq_some_iff.mpr ⟨inner, written, by simp, noMark⟩, long⟩
    · simp [keeps rest ending]

theorem pointed?_append_trailing (oneLine : '\n' ∉ text) (found : pointed? s = some (target, "")) :
    pointed? (s ++ trailing text) = some (target, kept text) := by
  obtain ⟨u, v, blanks, sign, nonempty, _, further⟩ := pointed?_eq_some found
  have start : u ≠ [] := by
    rw [after?_eq_some_iff.mp sign]
    simp
  refine bind_eq_some_iff.mpr ⟨v ++ trailing text, ?_, ?_⟩
  · exact bind_eq_some_iff.mpr
      ⟨u ++ trailing text, afterBlanks?_append blanks start _, after?_append_right sign _⟩
  · rw [trimStart_append nonempty]
    exact target?_append_trailing oneLine further

theorem pointed?_eq_none (starts : trimStart s = c :: rest) (other : c ≠ '-') : pointed? s = none := by
  cases found : pointed? s with
  | none => rfl
  | some result =>
    obtain ⟨u, v, blanks, sign, _⟩ := pointed?_eq_some found
    rw [eq_trimStart_of_afterBlanks? blanks, starts, after?_eq_some_iff] at sign
    exact absurd (cons.inj sign).1 other

theorem trimStart_blanks_trailing (blank : ∀ c ∈ blanks, isBlank c) :
    trimStart (blanks ++ trailing text) = '#' :: text := by
  rw [trimStart_append_of_blank blank, trailing, trimStart_space, trimStart_cons_of_solid (by decide)]

theorem targetEnding?_blanks_trailing (blank : ∀ c ∈ blanks, isBlank c) :
    targetEnding? (blanks ++ trailing text) = none := by
  rw [targetEnding?_eq, pointed?_eq_none (trimStart_blanks_trailing blank) (by decide),
    commaEnding?_blanks_trailing blank]
  rfl

theorem targetEnding?_append_trailing (oneLine : '\n' ∉ text) {target : Option (List Char)}
    (found : targetEnding? s = some (target, "")) :
    targetEnding? (s ++ trailing text) = some (target, kept text) := by
  rw [targetEnding?_eq] at found ⊢
  rcases or_eq_some_iff.mp found with arrow | ⟨_, ending⟩
  · obtain ⟨⟨word, _⟩, further, ⟨⟩⟩ := map_eq_some_iff.mp arrow
    rw [pointed?_append_trailing oneLine further]
    rfl
  · obtain ⟨_, further, ⟨⟩⟩ := map_eq_some_iff.mp ending
    obtain ⟨blanks, rest, rfl, blank, _⟩ := commaEnding?_eq_some further
    have starts : trimStart (blanks ++ ',' :: rest ++ trailing text) = ',' :: (rest ++ trailing text) := by
      rw [append_assoc, trimStart_append_of_blank blank, cons_append, trimStart_cons_of_solid (by decide)]
    rw [pointed?_eq_none starts (by decide), commaEnding?_append_trailing oneLine further]
    rfl

end Targets

/-! ## Paths -/

/-- A word ends before this: a blank follows, or the comma that ends the line. -/
def Cut (rest : List Char) : Prop :=
  (∃ c more, rest = c :: more ∧ isBlank c = true) ∨
    ∃ blanks, rest = ',' :: blanks ∧ ∀ c ∈ blanks, isBlank c = true

theorem Cut.eq_nil_or_comma (cut : Cut rest) (split : rest = start ++ suffix)
    (solid : ∀ c ∈ start, isSolid c) : start = [] ∨ start = [','] ∧ ∀ c ∈ suffix, isBlank c := by
  cases start with
  | nil => exact .inl rfl
  | cons d start =>
    rw [forall_mem_cons] at solid
    rcases cut with ⟨c, more, rfl, blank⟩ | ⟨blanks, rfl, blank⟩
    · obtain ⟨rfl, _⟩ := cons.inj split
      rw [isSolid, blank] at solid
      cases solid.1
    · obtain ⟨rfl, rfl⟩ := cons.inj split
      cases start with
      | nil => exact .inr ⟨rfl, blank⟩
      | cons e start =>
        have solidHere := solid.2 e mem_cons_self
        rw [isSolid, blank e (by simp)] at solidHere
        cases solidHere

theorem start_of_targetEnding? {target : Option (List Char)} {comment : String}
    (found : targetEnding? s = some (target, comment)) :
    ',' ∈ s ∧ (∃ c rest, trimStart s = c :: rest ∧ c ∈ ['-', ',']) ∧ (comment = "" → Cut s) := by
  rw [targetEnding?_eq] at found
  rcases or_eq_some_iff.mp found with arrow | ⟨_, ending⟩
  · obtain ⟨⟨word, _⟩, further, ⟨⟩⟩ := map_eq_some_iff.mp arrow
    obtain ⟨u, v, blanks, sign, _, within, pointed⟩ := pointed?_eq_some further
    rw [eq_trimStart_of_afterBlanks? blanks, after?_eq_some_iff] at sign
    obtain ⟨c, more, rfl, blank⟩ := exists_blank_of_afterBlanks? blanks
    exact ⟨within.subset (target?_eq_some pointed).1, ⟨'-', '>' :: v, sign, by decide⟩,
      fun _ => .inl ⟨c, more, rfl, blank⟩⟩
  · obtain ⟨_, further, ⟨⟩⟩ := map_eq_some_iff.mp ending
    obtain ⟨blanks, rest, rfl, blank, isEnd⟩ := commaEnding?_eq_some further
    refine ⟨by simp, ⟨',', rest, ?_, by decide⟩, ?_⟩
    · rw [trimStart_append_of_blank blank, trimStart_cons_of_solid (by decide)]
    · rintro rfl
      cases blanks with
      | nil => exact .inr ⟨rest, rfl, blank_of_ending? isEnd⟩
      | cons c blanks => exact .inl ⟨c, blanks ++ ',' :: rest, rfl, blank c mem_cons_self⟩

section Paths

variable {α : Type} {read : List Char → Option α} {path : List Char} {value commented : α}

theorem closing?_later (absent : '"' ∉ inner) (found : read rest = some value) (cut : Cut rest)
    (split : '}' :: inner ++ '"' :: rest = start ++ suffix) (solid : ∀ c ∈ start, isSolid c)
    (unread : closing? read suffix = none) : suffix.head? ≠ some '}' := by
  intro brace
  obtain ⟨more, rfl⟩ : ∃ more, suffix = '}' :: more := by
    cases suffix with
    | nil => cases brace
    | cons c more =>
      cases brace
      exact ⟨more, rfl⟩
  rcases append_eq_append_iff.mp split with ⟨middle, rfl, behind⟩ | ⟨middle, shape, behind⟩
  · cases middle with
    | nil => exact absurd (cons.inj behind).1 (by decide)
    | cons c middle =>
      obtain ⟨rfl, rfl⟩ := cons.inj behind
      have inside : ∀ c ∈ middle, isSolid c := fun c member => solid c (by simp [member])
      rcases cut.eq_nil_or_comma rfl inside with rfl | ⟨rfl, blank⟩
      · rcases cut with ⟨c, others, same, blank⟩ | ⟨blanks, same, _⟩
        · obtain ⟨rfl, _⟩ := cons.inj same
          cases blank
        · exact absurd (cons.inj same).1 (by decide)
      · exact absurd (blank '}' mem_cons_self) (by decide)
  · cases middle with
    | nil => exact absurd (cons.inj behind).1 (by decide)
    | cons c middle =>
      obtain ⟨rfl, _⟩ := cons.inj behind
      have inside : '"' ∉ middle := by
        intro mark
        have member : '"' ∈ '}' :: inner := by simp [shape, mark]
        exact absent (by simpa using member)
      rw [behind, closing?_append inside found] at unread
      cases unread

variable (keeps : ∀ rest, read rest = some value → Cut rest ∧ read (rest ++ trailing text) = some commented)
  (unread : ∀ blanks, (∀ c ∈ blanks, isBlank c = true) → read (blanks ++ trailing text) = none)
include keeps unread

theorem longest?_cut_trailing (found : longest? isSolid read s = some (path, value)) :
    longest? isSolid read (s ++ trailing text) = some (path, commented) := by
  obtain ⟨rest, rfl, allowed, success, later⟩ := longest?_eq_some found
  obtain ⟨cut, again⟩ := keeps rest success
  rw [append_assoc]
  refine longest?_append allowed ?_ again
  intro start suffix split nonempty solid
  have stops : isSolid ' ' = false := by decide
  obtain ⟨u, rfl, rfl⟩ := exists_before_stop stops split solid
  rcases cut.eq_nil_or_comma rfl solid with rfl | ⟨_, blank⟩
  · exact absurd rfl nonempty
  · exact unread u blank

omit unread in
theorem quotedVariableRest?_append_trailing (found : quotedVariableRest? read s = some (path, value)) :
    quotedVariableRest? read (s ++ trailing text) = some (path, commented) := by
  rw [quotedVariableRest?_eq] at found ⊢
  obtain ⟨⟨name, part, _⟩, cut, ⟨⟩⟩ := map_eq_some_iff.mp found
  obtain ⟨nonempty, longest⟩ := longestPart?_eq_some_iff.mp cut
  obtain ⟨tail, rfl, nameSolid, closes, later⟩ := longest?_eq_some longest
  obtain ⟨inner, rest, rfl, absent, success, rfl⟩ := closing?_eq_some closes
  obtain ⟨cutRest, again⟩ := keeps rest success
  have closesAgain : closing? read ('}' :: inner ++ '"' :: rest ++ trailing text) =
      some ('}' :: inner ++ ['"'], commented) := by
    rw [append_assoc]
    exact closing?_append absent again
  refine map_eq_some_iff.mpr ⟨(name, '}' :: inner ++ ['"'], commented), ?_, rfl⟩
  refine longestPart?_eq_some_iff.mpr ⟨nonempty, ?_⟩
  rw [append_assoc]
  refine longest?_append nameSolid ?_ closesAgain
  intro start suffix split some solid
  have stops : isSolid ' ' = false := by decide
  obtain ⟨u, rfl, shape⟩ := exists_before_stop stops split solid
  have noBrace := closing?_later absent success cutRest shape solid (later start u shape some solid)
  cases u with
  | nil => rfl
  | cons c u =>
    have other : c ≠ '}' := by
      rintro rfl
      exact noBrace rfl
    simp [closing?, other]

theorem path?_append_trailing (found : path? read s = some (path, value)) :
    path? read (s ++ trailing text) = some (path, commented) := by
  unfold path? at found
  split at found
  next s =>
    obtain ⟨⟨part, _⟩, further, ⟨⟩⟩ := map_eq_some_iff.mp found
    simp [path?, longest?_cut_trailing keeps unread further, behind]
  next s =>
    obtain ⟨⟨part, _⟩, further, ⟨⟩⟩ := map_eq_some_iff.mp found
    cases s with
    | nil => cases further
    | cons c s =>
      simp only [variableRest?] at further
      split at further
      next firstSolid =>
        obtain ⟨⟨name, tail⟩, brace, further⟩ := bind_eq_some_iff.mp further
        obtain ⟨⟨part, _⟩, success, ⟨⟩⟩ := map_eq_some_iff.mp further
        obtain ⟨inner, rfl, rfl, noBrace, nameSolid⟩ := upToBrace?_eq_some brace
        have again := upToBrace?_append nameSolid noBrace (tail ++ trailing text)
        simp [path?, variableRest?, firstSolid, again, longest?_cut_trailing keeps unread success, behind]
      · cases further
  next s =>
    obtain ⟨⟨part, _⟩, further, ⟨⟩⟩ := map_eq_some_iff.mp found
    obtain ⟨inner, rest, rfl, absent, success, rfl⟩ := quotedRest?_eq_some_iff.mp further
    have again : quotedRest? read (inner ++ '"' :: rest ++ trailing text) =
        some (inner ++ ['"'], commented) :=
      quotedRest?_eq_some_iff.mpr ⟨inner, rest ++ trailing text, by simp, absent, (keeps rest success).2, rfl⟩
    simp only [path?, cons_append, again]
    rfl
  next s =>
    obtain ⟨⟨part, _⟩, further, ⟨⟩⟩ := map_eq_some_iff.mp found
    simp [path?, quotedVariableRest?_append_trailing keeps further, behind]
  · cases found

end Paths

end ArmorPolicy.Line
