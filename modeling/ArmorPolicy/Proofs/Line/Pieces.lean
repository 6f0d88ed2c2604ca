import ArmorPolicy.Line.Basic
import ArmorPolicy.Proofs.Text.Words

/-!
# What the pieces of a line read

Each piece is read exactly from the text that it consists of: words and blanks, texts up to a sign,
endings with their comments, and the shortest or longest part behind which the rest can be read.
-/

namespace ArmorPolicy.Line

open List Option Text

variable {c : Char} {blanks part rest s start : List Char} {comment word : String}

/-! ## Words and blanks -/

theorem afterChars?_eq_some_iff {word : List Char} : afterChars? word s = some rest ↔ s = word ++ rest := by
  induction word generalizing s with
  | nil => simp [afterChars?]
  | cons w word ih =>
    cases s with
    | nil => simp [afterChars?]
    | cons c s =>
      by_cases same : w = c
      · subst same
        simp [afterChars?, ih]
      · simp [afterChars?, same, Ne.symm same]

theorem after?_eq_some_iff : after? word s = some rest ↔ s = word.toList ++ rest := afterChars?_eq_some_iff

theorem after?_append (word : String) (rest : List Char) : after? word (word.toList ++ rest) = some rest :=
  after?_eq_some_iff.mpr rfl

theorem suffix_of_after? (found : after? word s = some rest) : rest <:+ s :=
  ⟨word.toList, (after?_eq_some_iff.mp found).symm⟩

theorem afterBlanks?_cons (blank : isBlank c) (s : List Char) :
    afterBlanks? (c :: s) = some (trimStart s) := by
  simp [afterBlanks?, blank]

theorem afterBlanks?_space (starts : StartsSolid s) : afterBlanks? (' ' :: s) = some s := by
  rw [afterBlanks?_cons (by decide), trimStart_of_startsSolid starts]

theorem afterBlanks?_of_startsSolid (starts : StartsSolid s) : afterBlanks? s = none := by
  obtain ⟨c, rest, rfl, solid⟩ := starts
  simp [afterBlanks?, isBlank_eq_false_iff.mpr solid]

theorem exists_blank_of_afterBlanks? (found : afterBlanks? s = some rest) :
    ∃ c t, s = c :: t ∧ isBlank c := by
  cases s with
  | nil => cases found
  | cons c t =>
    by_cases blank : isBlank c
    · exact ⟨c, t, rfl, blank⟩
    · simp [afterBlanks?, blank] at found

theorem afterBlanks?_suffix (found : afterBlanks? s = some rest) : rest <:+ s := by
  cases s with
  | nil => cases found
  | cons c s =>
    simp only [afterBlanks?] at found
    split at found
    · rw [← Option.some.inj found]
      exact (dropWhile_suffix _).trans (suffix_cons c s)
    · cases found

theorem afterWord?_suffix (found : afterWord? word s = some rest) : rest <:+ s := by
  obtain ⟨behind, read, blanks⟩ := bind_eq_some_iff.mp found
  rw [after?_eq_some_iff.mp read]
  exact (afterBlanks?_suffix blanks).trans (suffix_append _ _)

theorem afterWord?_append (word : String) (starts : StartsSolid s) :
    afterWord? word (word.toList ++ ' ' :: s) = some s := by
  rw [afterWord?, after?_append, bind_some, afterBlanks?_space starts]

/-! ## Texts up to a sign -/

theorem upTo?_eq_some_iff {stop : Char} {inner : List Char} :
    upTo? stop s = some (inner, rest) ↔ s = inner ++ stop :: rest ∧ stop ∉ inner := by
  induction s generalizing inner with
  | nil => simp [upTo?]
  | cons c s ih =>
    by_cases same : c = stop
    · subst same
      cases inner with
      | nil => simp [upTo?]
      | cons d inner => simp [upTo?, eq_comm]; grind
    · cases inner with
      | nil => simp [upTo?, same]
      | cons d inner => simp [upTo?, same, ih]; grind

theorem upTo?_append {stop : Char} {inner : List Char} (absent : stop ∉ inner) (rest : List Char) :
    upTo? stop (inner ++ stop :: rest) = some (inner, rest) :=
  upTo?_eq_some_iff.mpr ⟨rfl, absent⟩

theorem quotation?_eq_some_iff {written : List Char} :
    quotation? s = some (written, rest) ↔
      ∃ inner, written = '"' :: inner ++ ['"'] ∧ s = '"' :: inner ++ '"' :: rest ∧ '"' ∉ inner := by
  unfold quotation?
  split
  next s =>
    simp only [map_eq_some_iff, Prod.exists, upTo?_eq_some_iff, Prod.mk.injEq]
    constructor
    · rintro ⟨inner, rest, ⟨rfl, absent⟩, rfl, rfl⟩
      exact ⟨inner, rfl, rfl, absent⟩
    · rintro ⟨inner, rfl, text, absent⟩
      exact ⟨inner, rest, ⟨(List.cons.inj text).2, absent⟩, rfl, rfl⟩
  next noMark =>
    refine ⟨by rintro ⟨⟩, ?_⟩
    rintro ⟨inner, _, text, _⟩
    exact absurd text (noMark _)

/-! ## Endings -/

/-- A comment as a rule or a header keeps it, with a space before it; or none. -/
def TrailingComment (comment : String) : Prop :=
  comment = "" ∨ ∃ rest, comment.toList = ' ' :: '#' :: rest ∧ EndsSolid ('#' :: rest) ∧ '\n' ∉ rest

theorem TrailingComment.oneLine (valid : TrailingComment comment) : '\n' ∉ comment.toList := by
  rcases valid with rfl | ⟨rest, text, _, oneLine⟩
  · simp
  · simp [text, oneLine]

theorem ending?_of_trailingComment (valid : TrailingComment comment) :
    ending? comment.toList = some comment := by
  rcases valid with rfl | ⟨rest, text, ends, oneLine⟩
  · rfl
  · have start : trimStart comment.toList = '#' :: rest := by
      rw [text, trimStart_cons_of_blank (by decide), trimStart_cons_of_solid (by decide)]
    have kept : trimEnd ('#' :: rest) = '#' :: rest := trimEnd_of_endsSolid ends
    have noBreak : ('#' :: rest).contains '\n' = false := by
      simpa using oneLine
    simp only [ending?, start, kept, noBreak]
    rw [← text, String.ofList_toList]
    rfl

theorem ending?_blanks (blank : ∀ c ∈ blanks, isBlank c) (s : List Char) :
    ending? (blanks ++ s) = ending? s := by
  simp only [ending?, trimStart_append_of_blank blank]

def kept (text : List Char) : String := String.ofList (' ' :: trimEnd ('#' :: text))

theorem ending?_sign (oneLine : '\n' ∉ rest) : ending? ('#' :: rest) = some (kept rest) := by
  have noBreak : '\n' ∉ trimEnd ('#' :: rest) := by
    intro newline
    have member := (trimEnd_sublist _).subset newline
    simp [oneLine] at member
  simp [ending?, trimStart_cons_of_solid (c := '#') (by decide), noBreak, kept]

theorem ending?_of_solid (solid : isSolid c) (noSign : c ≠ '#') (s : List Char) :
    ending? (c :: s) = none := by
  simp [ending?, trimStart_cons_of_solid solid, noSign]

theorem ending?_append_blanks (blank : ∀ c ∈ blanks, isBlank c) (s : List Char) :
    ending? (s ++ blanks) = ending? s := by
  rcases blank_or_solid s with blankBefore | ⟨before, c, rest, rfl, blankBefore, solid⟩
  · rw [ending?_blanks blankBefore, ← append_nil blanks, ending?_blanks blank, ← append_nil s,
      ending?_blanks blankBefore]
  · rw [append_assoc, cons_append, ending?_blanks blankBefore, ending?_blanks blankBefore]
    by_cases sign : c = '#'
    · subst sign
      have same : trimEnd ('#' :: (rest ++ blanks)) = trimEnd ('#' :: rest) := by
        rw [← cons_append, trimEnd_append_of_blanks blank]
      simp only [ending?, trimStart_cons_of_solid solid, same]
    · rw [ending?_of_solid solid sign, ending?_of_solid solid sign]

theorem ending?_eq_some (found : ending? s = some comment) :
    ∃ blanks rest, s = blanks ++ rest ∧ (∀ c ∈ blanks, isBlank c) ∧
      (rest = [] ∧ comment = "" ∨
        ∃ text, rest = '#' :: text ∧ comment.toList = ' ' :: trimEnd ('#' :: text) ∧
          '\n' ∉ trimEnd ('#' :: text)) := by
  obtain ⟨blanks, text, blank⟩ := exists_blanks s
  refine ⟨blanks, trimStart s, text, blank, ?_⟩
  unfold ending? at found
  split at found
  next empty => exact .inl ⟨empty, (Option.some.inj found).symm⟩
  next rest sign =>
    simp only at found
    split at found
    · cases found
    next oneLine =>
      refine .inr ⟨rest, sign, ?_, by simpa using oneLine⟩
      rw [← Option.some.inj found, String.toList_ofList]
  · cases found

theorem trailingComment_of_ending? (found : ending? s = some comment) : TrailingComment comment := by
  obtain ⟨_, _, _, _, ⟨_, rfl⟩ | ⟨text, _, shape, oneLine⟩⟩ := ending?_eq_some found
  · exact .inl rfl
  · have sign : trimEnd ('#' :: text) = '#' :: trimEnd text := trimEnd_cons_of_solid (by decide) text
    have ends : EndsSolid (trimEnd ('#' :: text)) := endsSolid_trimEnd (by simp [sign])
    rw [sign] at shape oneLine ends
    exact .inr ⟨trimEnd text, shape, ends, fun newline => oneLine (mem_cons_of_mem _ newline)⟩

/-! ### Commas -/

theorem commaEnding?_blanks (blank : ∀ c ∈ blanks, isBlank c) (s : List Char) :
    commaEnding? (blanks ++ s) = commaEnding? s := by
  simp only [commaEnding?, trimStart_append_of_blank blank]

theorem commaEnding?_comma (s : List Char) : commaEnding? (',' :: s) = ending? s := by
  simp only [commaEnding?, trimStart_cons_of_solid (c := ',') (by decide)]

theorem commaEnding?_of_trailingComment (valid : TrailingComment comment) :
    commaEnding? (',' :: comment.toList) = some comment := by
  rw [commaEnding?_comma, ending?_of_trailingComment valid]

theorem commaEnding?_of_solid (solid : isSolid c) (noComma : c ≠ ',') (s : List Char) :
    commaEnding? (c :: s) = none := by
  simp [commaEnding?, trimStart_cons_of_solid solid, noComma]

theorem commaEnding?_append_blanks (blank : ∀ c ∈ blanks, isBlank c) (s : List Char) :
    commaEnding? (s ++ blanks) = commaEnding? s := by
  rcases blank_or_solid s with blankBefore | ⟨before, c, rest, rfl, blankBefore, solid⟩
  · rw [commaEnding?_blanks blankBefore, ← append_nil blanks, commaEnding?_blanks blank, ← append_nil s,
      commaEnding?_blanks blankBefore]
  · rw [append_assoc, cons_append, commaEnding?_blanks blankBefore, commaEnding?_blanks blankBefore]
    by_cases comma : c = ','
    · rw [comma, commaEnding?_comma, commaEnding?_comma, ending?_append_blanks blank]
    · rw [commaEnding?_of_solid solid comma, commaEnding?_of_solid solid comma]

theorem commaEnding?_eq_some (found : commaEnding? s = some comment) :
    ∃ blanks rest, s = blanks ++ ',' :: rest ∧ (∀ c ∈ blanks, isBlank c) ∧ ending? rest = some comment := by
  obtain ⟨blanks, text, blank⟩ := exists_blanks s
  unfold commaEnding? at found
  split at found
  next rest comma => exact ⟨blanks, rest, by rw [← comma, ← text], blank, found⟩
  · cases found

theorem comma_of_commaEnding? {comment : String} (found : commaEnding? s = some comment) : ',' ∈ s := by
  obtain ⟨blanks, rest, rfl, _⟩ := commaEnding?_eq_some found
  simp

theorem trailingComment_of_commaEnding? (found : commaEnding? s = some comment) :
    TrailingComment comment := by
  obtain ⟨_, _, _, _, ending⟩ := commaEnding?_eq_some found
  exact trailingComment_of_ending? ending

theorem commaEnding?_trailing (valid : TrailingComment comment) : commaEnding? comment.toList = none := by
  rcases valid with rfl | ⟨rest, text, _, _⟩
  · rfl
  · rw [text, ← singleton_append, commaEnding?_blanks (by decide)]
    exact commaEnding?_of_solid (by decide) (by decide) rest

theorem exists_solid (ends : EndsSolid s) :
    ∃ blanks c rest, s = blanks ++ c :: rest ∧ (∀ d ∈ blanks, isBlank d) ∧ isSolid c := by
  rcases blank_or_solid s with blank | solid
  · obtain ⟨start, last, rfl, solid⟩ := ends
    rw [isSolid, blank last (by simp)] at solid
    cases solid
  · exact solid

theorem ending?_of_noSign (ends : EndsSolid part) (noSign : '#' ∉ part) (rest : List Char) :
    ending? (part ++ rest) = none := by
  obtain ⟨blanks, c, tail, rfl, blank, solid⟩ := exists_solid ends
  rw [append_assoc, ending?_blanks blank, cons_append]
  refine ending?_of_solid solid ?_ _
  rintro rfl
  exact noSign (by simp)

theorem commaEnding?_of_noComma (ends : EndsSolid part) (noComma : ',' ∉ part) (rest : List Char) :
    commaEnding? (part ++ rest) = none := by
  obtain ⟨blanks, c, tail, rfl, blank, solid⟩ := exists_solid ends
  rw [append_assoc, commaEnding?_blanks blank, cons_append]
  refine commaEnding?_of_solid solid ?_ _
  rintro rfl
  exact noComma (by simp)

theorem commaEnding?_of_noSign (ends : EndsSolid part) (noSign : '#' ∉ part) (rest : List Char) :
    commaEnding? (part ++ ',' :: rest) = none := by
  obtain ⟨blanks, c, tail, rfl, blank, solid⟩ := exists_solid ends
  rw [append_assoc, commaEnding?_blanks blank, cons_append]
  by_cases comma : c = ','
  · subst comma
    rw [commaEnding?_comma]
    cases tail with
    | nil => exact ending?_of_solid (by decide) (by decide) rest
    | cons d tail =>
      exact ending?_of_noSign (ends.of_suffix ⟨blanks ++ [','], by simp⟩ (by simp))
        (fun sign => noSign (by simp_all)) _
  · exact commaEnding?_of_solid solid comma _

/-- A comma in a comment that could end the line could do so in the line from which the comment was
taken. -/
theorem commaEnding?_of_later (found : commaEnding? s = some comment)
    (later : ∀ start suffix, s = start ++ suffix → EndsSolid start → commaEnding? suffix = none)
    {suffix : List Char} (split : ',' :: comment.toList = start ++ suffix)
    (startEnds : EndsSolid start) : commaEnding? suffix = none := by
  obtain ⟨blanks, more, rfl, _, ending⟩ := commaEnding?_eq_some found
  obtain ⟨between, tail, rfl, _, comments⟩ := ending?_eq_some ending
  obtain ⟨c, begun, rfl⟩ := exists_cons_of_ne_nil startEnds.ne_nil
  rw [cons_append, cons.injEq] at split
  rcases comments with ⟨_, rfl⟩ | ⟨text, rfl, commentText, _⟩
  · have none : suffix = [] := (append_eq_nil_iff.mp split.2.symm).2
    rw [none]
    rfl
  · obtain ⟨left, kept, blank⟩ := exists_blanks_behind ('#' :: text)
    rw [trimEnd_cons_of_solid (by decide)] at commentText kept
    rw [commentText] at split
    rcases begun with _ | ⟨d, begun⟩
    · rw [← nil_append suffix, ← split.2]
      rfl
    · rw [cons_append, cons.injEq] at split
      rcases begun with _ | ⟨e, begun⟩
      · have blank : isBlank d := by rw [← split.2.1]; decide
        exact absurd startEnds (not_endsSolid_of_blank blank [c])
      · rw [cons_append, cons.injEq] at split
        obtain ⟨rfl, rfl, rfl, kept'⟩ := split
        rw [kept'] at kept
        rw [← commaEnding?_append_blanks blank]
        refine later (blanks ++ ',' :: (between ++ '#' :: begun)) (suffix ++ left) (by simp [kept]) ?_
        have signEnds : EndsSolid ('#' :: begun) := (startEnds.of_cons (by simp)).of_cons (by simp)
        exact ((signEnds.append between).cons ',').append blanks

theorem looseEnding?_eq (s : List Char) : looseEnding? s = (commaEnding? s).or (ending? s) := by
  rcases blank_or_solid s with blank | ⟨blanks, c, rest, rfl, blank, solid⟩
  · rw [← append_nil s, commaEnding?_blanks blank, ending?_blanks blank]
    simp only [looseEnding?, trimStart_append_of_blank blank]
    rfl
  · rw [commaEnding?_blanks blank, ending?_blanks blank]
    simp only [looseEnding?, trimStart_append_of_blank blank, trimStart_cons_of_solid solid]
    split
    next rest same =>
      obtain ⟨rfl, rfl⟩ := cons.inj same
      rw [commaEnding?_comma, ending?_of_solid solid (by decide), or_none]
    next other =>
      rw [commaEnding?_of_solid solid fun comma => other _ (by rw [comma]), none_or]

theorem looseEnding?_sign (oneLine : '\n' ∉ rest) : looseEnding? ('#' :: rest) = some (kept rest) := by
  rw [looseEnding?_eq, commaEnding?_of_solid (by decide) (by decide), none_or, ending?_sign oneLine]

theorem looseEnding?_of_trailingComment (valid : TrailingComment comment) :
    looseEnding? comment.toList = some comment := by
  rw [looseEnding?_eq, commaEnding?_trailing valid, none_or, ending?_of_trailingComment valid]

theorem trailingComment_of_looseEnding? (found : looseEnding? s = some comment) :
    TrailingComment comment := by
  rw [looseEnding?_eq] at found
  rcases or_eq_some_iff.mp found with comma | ⟨_, ending⟩
  · exact trailingComment_of_commaEnding? comma
  · exact trailingComment_of_ending? ending

/-! ### Braces -/

theorem braceEnding?_of_trailingComment (valid : TrailingComment comment) :
    braceEnding? (' ' :: '{' :: comment.toList) = some comment := by
  have start : trimStart (' ' :: '{' :: comment.toList) = '{' :: comment.toList := by
    rw [trimStart_cons_of_blank (by decide), trimStart_cons_of_solid (by decide)]
  simp only [braceEnding?, start]
  exact ending?_of_trailingComment valid

theorem trailingComment_of_braceEnding? (found : braceEnding? s = some comment) :
    TrailingComment comment := by
  unfold braceEnding? at found
  split at found
  · exact trailingComment_of_ending? found
  · cases found

/-! ## Choices -/

section Choices

theorem findSome?_of_unique {α β : Type} [DecidableEq α] {choices : List α} {read : α → Option β}
    {choice : α} {value : β} (member : choice ∈ choices) (found : read choice = some value)
    (others : ∀ other ∈ choices, other ≠ choice → read other = none) :
    choices.findSome? read = some value := by
  induction choices with
  | nil => cases member
  | cons first choices ih =>
    rw [findSome?_cons]
    by_cases same : first = choice
    · rw [same, found]
    · rw [others first mem_cons_self same]
      refine ih ((mem_cons.mp member).resolve_left (Ne.symm same)) ?_
      exact fun other among => others other (mem_cons_of_mem _ among)

variable {α : Type} {p : Char → Bool} {read : List Char → Option α} {value : α}

theorem forall_notNewline_iff : (∀ c ∈ s, notNewline c) ↔ '\n' ∉ s :=
  ⟨fun all newline => absurd (all _ newline) (by decide),
    fun oneLine _ member => bne_iff_ne.mpr fun same => oneLine (same ▸ member)⟩

/-- What satisfies `p` up to a character that does not lies before it. -/
theorem exists_before_stop {t suffix : List Char} (stops : p c = false)
    (split : s ++ c :: t = start ++ suffix) (all : ∀ c ∈ start, p c) :
    ∃ u, suffix = u ++ c :: t ∧ s = start ++ u := by
  rcases append_eq_append_iff.mp split with ⟨middle, rfl, behind⟩ | ⟨u, rfl, rfl⟩
  · cases middle with
    | nil => exact ⟨[], behind.symm, by simp⟩
    | cons d middle =>
      obtain ⟨rfl, _⟩ := cons.inj behind
      rw [all c (by simp)] at stops
      cases stops
  · exact ⟨u, rfl, rfl⟩

theorem shortest?_append (allowed : ∀ c ∈ part, p c)
    (earlier : ∀ start suffix, part = start ++ suffix → suffix ≠ [] → read (suffix ++ rest) = none)
    (found : read rest = some value) : shortest? p read (part ++ rest) = some (part, value) := by
  induction part with
  | nil =>
    rw [nil_append]
    cases rest with
    | nil => simp [shortest?, found]
    | cons c rest => simp [shortest?, found]
  | cons c part ih =>
    rw [forall_mem_cons] at allowed
    have here : read (c :: (part ++ rest)) = none := earlier [] (c :: part) rfl (by simp)
    have next := ih allowed.2 fun start suffix split nonempty =>
      earlier (c :: start) suffix (by rw [split]; rfl) nonempty
    simp [shortest?, here, allowed.1, next, behind]

theorem shortest?_eq_some (found : shortest? p read s = some (part, value)) :
    ∃ rest, s = part ++ rest ∧ (∀ c ∈ part, p c) ∧ read rest = some value ∧
      ∀ start suffix, part = start ++ suffix → suffix ≠ [] → read (suffix ++ rest) = none := by
  induction s generalizing part with
  | nil =>
    obtain ⟨value, success, ⟨⟩⟩ := map_eq_some_iff.mp found
    refine ⟨[], rfl, by simp, success, ?_⟩
    intro start suffix split nonempty
    exact absurd (append_eq_nil_iff.mp split.symm).2 nonempty
  | cons c s ih =>
    simp only [shortest?] at found
    split at found
    next success =>
      cases found
      refine ⟨c :: s, rfl, by simp, success, ?_⟩
      intro start suffix split nonempty
      exact absurd (append_eq_nil_iff.mp split.symm).2 nonempty
    next here =>
      split at found
      next allowed =>
        obtain ⟨⟨inner, value⟩, further, ⟨⟩⟩ := map_eq_some_iff.mp found
        obtain ⟨rest, rfl, others, success, earlier⟩ := ih further
        refine ⟨rest, rfl, by simpa [allowed] using others, success, ?_⟩
        intro start suffix split nonempty
        cases start with
        | nil =>
          obtain rfl : c :: inner = suffix := split
          exact here
        | cons d start =>
          exact earlier start suffix (cons.inj split).2 nonempty
      · cases found

theorem exists_shortest?_prefix (allowed : ∀ c ∈ start, p c) (readable : (read rest).isSome) :
    ∃ part value, shortest? p read (start ++ rest) = some (part, value) ∧ part <+: start := by
  induction start with
  | nil =>
    obtain ⟨value, found⟩ := isSome_iff_exists.mp readable
    refine ⟨[], value, ?_, nil_prefix⟩
    cases rest <;> simp [shortest?, found]
  | cons c start ih =>
    rw [forall_mem_cons] at allowed
    simp only [cons_append, shortest?]
    split
    next value _ => exact ⟨[], value, rfl, nil_prefix⟩
    · obtain ⟨part, value, found, isPrefix⟩ := ih allowed.2
      exact ⟨c :: part, value, by simp [allowed.1, found, behind], cons_prefix_cons.mpr ⟨rfl, isPrefix⟩⟩

theorem shortest?_isSome (allowed : ∀ c ∈ start, p c) (readable : (read rest).isSome) :
    (shortest? p read (start ++ rest)).isSome := by
  obtain ⟨part, value, found, _⟩ := exists_shortest?_prefix allowed readable
  exact isSome_of_eq_some found

theorem shortest?_eq_none (stops : p c = false)
    (unread : ∀ suffix, suffix <:+ part → read (suffix ++ c :: rest) = none) :
    shortest? p read (part ++ c :: rest) = none := by
  induction part with
  | nil => simp [shortest?, stops, show read (c :: rest) = none from unread [] (suffix_refl _)]
  | cons d part ih =>
    have further := ih fun suffix behind => unread suffix (behind.trans (suffix_cons d part))
    have here : read (d :: (part ++ c :: rest)) = none := unread _ (suffix_refl _)
    simp [shortest?, here, further, behind]

theorem shortestPart?_eq_some_iff :
    shortestPart? p read s = some (part, value) ↔
      ∃ c rest inner, s = c :: rest ∧ part = c :: inner ∧ p c ∧
        shortest? p read rest = some (inner, value) := by
  cases s with
  | nil => simp [shortestPart?]
  | cons c s =>
    by_cases allowed : p c
    · simp only [shortestPart?, allowed, if_true, behind, map_eq_some_iff, Prod.exists,
        Prod.mk.injEq, cons.injEq]
      constructor
      · rintro ⟨inner, found, success, rfl, rfl⟩
        exact ⟨c, s, inner, ⟨rfl, rfl⟩, rfl, allowed, success⟩
      · rintro ⟨_, _, inner, ⟨rfl, rfl⟩, rfl, _, success⟩
        exact ⟨inner, value, success, rfl, rfl⟩
    · simp only [shortestPart?, allowed]
      refine ⟨by rintro ⟨⟩, ?_⟩
      rintro ⟨d, rest, inner, same, _, allowed', _⟩
      rw [(cons.inj same).1] at allowed
      exact absurd allowed' allowed

theorem shortestPart?_isSome_iff :
    (shortestPart? p read s).isSome ↔ ∃ part rest, s = part ++ rest ∧ part ≠ [] ∧
      (∀ c ∈ part, p c) ∧ (read rest).isSome := by
  constructor
  · intro readable
    obtain ⟨⟨part, value⟩, found⟩ := isSome_iff_exists.mp readable
    obtain ⟨c, _, inner, rfl, rfl, allowed, further⟩ := shortestPart?_eq_some_iff.mp found
    obtain ⟨rest, rfl, others, success, _⟩ := shortest?_eq_some further
    exact ⟨c :: inner, rest, rfl, cons_ne_nil c inner, forall_mem_cons.mpr ⟨allowed, others⟩,
      isSome_of_eq_some success⟩
  · rintro ⟨part, rest, rfl, nonempty, allowed, readable⟩
    obtain ⟨c, inner, rfl⟩ := exists_cons_of_ne_nil nonempty
    rw [forall_mem_cons] at allowed
    have further := shortest?_isSome allowed.2 readable
    simpa [shortestPart?, allowed.1, behind] using further

theorem longest?_cons_eq_none_iff :
    longest? p read (c :: s) = none ↔ (p c → longest? p read s = none) ∧ read (c :: s) = none := by
  by_cases allowed : p c
  · cases further : longest? p read s <;> simp [longest?, behind, allowed, further]
  · simp [longest?, allowed]

theorem longest?_eq_none_iff :
    longest? p read s = none ↔
      ∀ start suffix, s = start ++ suffix → (∀ c ∈ start, p c) → read suffix = none := by
  induction s with
  | nil =>
    simp only [longest?, map_eq_none_iff]
    constructor
    · intro unread start suffix split _
      rw [(append_eq_nil_iff.mp split.symm).2]
      exact unread
    · intro all
      exact all [] [] rfl (by simp)
  | cons c s ih =>
    rw [longest?_cons_eq_none_iff, ih]
    constructor
    · rintro ⟨further, unread⟩ start suffix split allowed
      cases start with
      | nil =>
        obtain rfl : c :: s = suffix := split
        exact unread
      | cons d start =>
        obtain ⟨rfl, rfl⟩ := cons.inj split
        rw [forall_mem_cons] at allowed
        exact further allowed.1 start suffix rfl allowed.2
    · intro all
      refine ⟨fun allowed start suffix split others => ?_, all [] (c :: s) rfl (by simp)⟩
      exact all (c :: start) suffix (by rw [split]; rfl) (by simpa [allowed] using others)

theorem longest?_append (allowed : ∀ c ∈ part, p c)
    (later : ∀ start suffix, rest = start ++ suffix → start ≠ [] → (∀ c ∈ start, p c) →
      read suffix = none) (found : read rest = some value) :
    longest? p read (part ++ rest) = some (part, value) := by
  induction part with
  | nil =>
    rw [nil_append]
    cases rest with
    | nil => simp [longest?, found]
    | cons c rest =>
      by_cases more : p c
      · have further : longest? p read rest = none := by
          refine longest?_eq_none_iff.mpr fun start suffix split others => ?_
          exact later (c :: start) suffix (by rw [split]; rfl) (by simp) (by simpa [more] using others)
        simp [longest?, further, behind, found]
      · simp [longest?, more, found]
  | cons c part ih =>
    rw [forall_mem_cons] at allowed
    simp [longest?, allowed.1, ih allowed.2, behind]

theorem longest?_append_stop (allowed : ∀ c ∈ part, p c)
    (stops : ∀ c ∈ rest.head?, p c = false) (found : read rest = some value) :
    longest? p read (part ++ rest) = some (part, value) := by
  refine longest?_append allowed ?_ found
  intro start suffix split nonempty others
  cases start with
  | nil => exact absurd rfl nonempty
  | cons c start =>
    have stop := stops c (by rw [split]; rfl)
    rw [others c mem_cons_self] at stop
    cases stop

theorem longest?_eq_some (found : longest? p read s = some (part, value)) :
    ∃ rest, s = part ++ rest ∧ (∀ c ∈ part, p c) ∧ read rest = some value ∧
      ∀ start suffix, rest = start ++ suffix → start ≠ [] → (∀ c ∈ start, p c) → read suffix = none := by
  induction s generalizing part with
  | nil =>
    obtain ⟨value, success, ⟨⟩⟩ := map_eq_some_iff.mp found
    refine ⟨[], rfl, by simp, success, ?_⟩
    intro start suffix split nonempty
    exact absurd (append_eq_nil_iff.mp split.symm).1 nonempty
  | cons c s ih =>
    simp only [longest?] at found
    split at found
    next further =>
      cases found
      split at further
      next allowed =>
        obtain ⟨⟨inner, value⟩, success, ⟨⟩⟩ := map_eq_some_iff.mp further
        obtain ⟨rest, rfl, others, read, later⟩ := ih success
        exact ⟨rest, rfl, by simpa [allowed] using others, read, later⟩
      · cases further
    next nothing =>
      obtain ⟨value, success, ⟨⟩⟩ := map_eq_some_iff.mp found
      refine ⟨c :: s, rfl, by simp, success, ?_⟩
      intro start suffix split nonempty allowed
      cases start with
      | nil => exact absurd rfl nonempty
      | cons d start =>
        obtain ⟨rfl, rfl⟩ := cons.inj split
        rw [forall_mem_cons] at allowed
        rw [if_pos allowed.1] at nothing
        exact longest?_eq_none_iff.mp (by simpa [behind] using nothing) start suffix rfl allowed.2

theorem longest?_isSome_iff :
    (longest? p read s).isSome ↔ ∃ start rest, s = start ++ rest ∧ (∀ c ∈ start, p c) ∧
      (read rest).isSome := by
  constructor
  · intro readable
    obtain ⟨⟨start, value⟩, found⟩ := isSome_iff_exists.mp readable
    obtain ⟨rest, split, allowed, success, _⟩ := longest?_eq_some found
    exact ⟨start, rest, split, allowed, isSome_of_eq_some success⟩
  · rintro ⟨start, rest, split, allowed, readable⟩
    refine isSome_iff_ne_none.mpr fun unread => ?_
    rw [longest?_eq_none_iff.mp unread start rest split allowed] at readable
    cases readable

theorem longest?_isSome (found : (read s).isSome) : (longest? p read s).isSome :=
  longest?_isSome_iff.mpr ⟨[], s, rfl, by simp, found⟩

theorem longestPart?_eq_some_iff :
    longestPart? p read s = some (part, value) ↔ part ≠ [] ∧ longest? p read s = some (part, value) := by
  cases s with
  | nil => simp [longestPart?, longest?]; grind
  | cons c s =>
    by_cases allowed : p c
    · simp only [longestPart?, longest?, allowed, if_true]
      cases further : behind [c] (longest? p read s) with
      | none =>
        simp only [reduceCtorEq, false_iff, not_and]
        intro nonempty impossible
        obtain ⟨_, _, same⟩ := map_eq_some_iff.mp impossible
        exact nonempty (Prod.mk.inj same).1.symm
      | some found =>
        obtain ⟨⟨inner, value'⟩, _, rfl⟩ := map_eq_some_iff.mp further
        simp
        grind
    · simp only [longestPart?, longest?, allowed]
      refine ⟨by rintro ⟨⟩, ?_⟩
      rintro ⟨nonempty, impossible⟩
      obtain ⟨_, _, same⟩ := map_eq_some_iff.mp impossible
      exact absurd (Prod.mk.inj same).1.symm nonempty

end Choices

/-! ## Bodies -/

section Bodies

variable {allowed : Char → Bool}

def spacedPart : List Char → List Char
  | [] => []
  | c :: part => ' ' :: c :: part

theorem spacedPart_of_ne_nil (nonempty : part ≠ []) : spacedPart part = ' ' :: part := by
  obtain ⟨c, rest, rfl⟩ := exists_cons_of_ne_nil nonempty
  rfl

theorem mem_of_mem_spacedPart (member : c ∈ spacedPart part) : c = ' ' ∨ c ∈ part := by
  cases part with
  | nil => cases member
  | cons d rest => exact mem_cons.mp member

theorem words_spacedPart (part : List Char) : words (spacedPart part) = words part := by
  cases part with
  | nil => rfl
  | cons c rest =>
    have blank : ∀ d ∈ [' '], isBlank d := by decide
    exact fields_of_separators blank (c :: rest)

theorem spacedPart_spaced {pieces : List String} (valid : ∀ piece ∈ pieces, SolidWord piece) :
    spacedPart (spaced pieces).toList = pieces.flatMap fun piece => ' ' :: piece.toList := by
  induction pieces with
  | nil => rfl
  | cons piece others ih =>
    have nonempty : (spaced (piece :: others)).toList ≠ [] := by
      obtain ⟨c, rest, text, _⟩ := startsSolid_spaced (by simp) valid
      simp [text]
    rw [forall_mem_cons] at valid
    rw [spacedPart_of_ne_nil nonempty, flatMap_cons, ← ih valid.2]
    cases others with
    | nil => simp [toList_spaced, spacedPart]
    | cons second others =>
      have more : (spaced (second :: others)).toList ≠ [] := by
        obtain ⟨c, rest, text, _⟩ := startsSolid_spaced (by simp) valid.2
        simp [text]
      rw [spacedPart_of_ne_nil more]
      simp [toList_spaced]

theorem body?_space (solid : isSolid c) :
    body? allowed (' ' :: c :: s) = behind [' '] (shortest? allowed commaEnding? (c :: s)) := by
  have blanks : (' ' :: c :: s).takeWhile isBlank = [' '] := by
    simp [isBlank_eq_false_iff.mpr solid, show isBlank ' ' by decide]
  simp only [body?, blanks, trimStart_space, trimStart_cons_of_solid solid]

theorem body?_spacedPart (valid : TrailingComment comment) (starts : part ≠ [] → StartsSolid part)
    (all : ∀ c ∈ part, allowed c) (earlier : ∀ start suffix, part = start ++ suffix → suffix ≠ [] →
      commaEnding? (suffix ++ ',' :: comment.toList) = none) :
    body? allowed (spacedPart part ++ ',' :: comment.toList) = some (spacedPart part, comment) := by
  cases part with
  | nil =>
    have none : (',' :: comment.toList).takeWhile isBlank = [] := rfl
    simp [spacedPart, body?, none, commaEnding?_of_trailingComment valid]
  | cons c rest =>
    have solid : isSolid c := by
      obtain ⟨d, tail, same, solid⟩ := starts (by simp)
      rw [(cons.inj same).1]
      exact solid
    have found := shortest?_append all earlier (commaEnding?_of_trailingComment valid)
    rw [spacedPart, cons_append, cons_append, body?_space solid, ← cons_append, found]
    rfl

theorem body?_of_noSign (valid : TrailingComment comment) (tidy : part ≠ [] → Tidy part)
    (noSign : '#' ∉ part) :
    body? (· != '#') (spacedPart part ++ ',' :: comment.toList) = some (spacedPart part, comment) := by
  refine body?_spacedPart valid (fun nonempty => (tidy nonempty).starts) ?_ ?_
  · intro c member
    rw [bne_iff_ne]
    rintro rfl
    exact noSign member
  · rintro start suffix rfl nonempty
    refine commaEnding?_of_noSign (EndsSolid.of_append (tidy (by simp [nonempty])).ends nonempty) ?_ _
    exact fun sign => noSign (mem_append_right _ sign)

/-- A body in one line without commas, or none. -/
structure PlainBody (part : List Char) : Prop where
  tidy : part ≠ [] → Tidy part
  noComma : ',' ∉ part

theorem oneLine_of_tidy (tidy : part ≠ [] → Tidy part) : '\n' ∉ part := by
  intro newline
  exact (tidy (ne_nil_of_mem newline)).oneLine newline

theorem PlainBody.body?_eq (plain : PlainBody part) (valid : TrailingComment comment) :
    body? notNewline (spacedPart part ++ ',' :: comment.toList) = some (spacedPart part, comment) := by
  refine body?_spacedPart valid (fun nonempty => (plain.tidy nonempty).starts)
    (forall_notNewline_iff.mpr (oneLine_of_tidy plain.tidy)) ?_
  rintro start suffix rfl nonempty
  refine commaEnding?_of_noComma (EndsSolid.of_append (plain.tidy (by simp [nonempty])).ends nonempty) ?_ _
  exact fun comma => plain.noComma (mem_append_right _ comma)

theorem plainBody_spaced {pieces : List String} (solid : ∀ piece ∈ pieces, SolidWord piece)
    (noComma : ∀ piece ∈ pieces, ',' ∉ piece.toList) : PlainBody (spaced pieces).toList := by
  refine ⟨fun some => tidy_spaced ?_ solid, fun comma => ?_⟩
  · rintro rfl
    exact some rfl
  · have other : ∀ c ∈ (spaced pieces).toList, c ≠ ',' := by
      refine forall_mem_spaced (by decide) ?_
      rintro piece member c inPiece rfl
      exact noComma piece member inPiece
    exact other ',' comma rfl

theorem body?_eq_some {body : List Char} (found : body? allowed s = some (body, comment)) :
    (∃ rest, s = body ++ rest ∧ commaEnding? rest = some comment) ∧ ∀ c ∈ body, isBlank c ∨ allowed c := by
  unfold body? at found
  split at found
  · obtain ⟨comment, ending, ⟨⟩⟩ := map_eq_some_iff.mp found
    exact ⟨⟨s, rfl, ending⟩, by simp⟩
  · obtain ⟨⟨part, comment⟩, further, ⟨⟩⟩ := map_eq_some_iff.mp found
    obtain ⟨rest, split, all, ending, _⟩ := shortest?_eq_some further
    refine ⟨⟨rest, ?_, ending⟩, ?_⟩
    · rw [append_assoc, ← split]
      exact takeWhile_append_dropWhile.symm
    · intro c member
      rcases mem_append.mp member with blank | inPart
      · exact .inl (all_eq_true.mp all_takeWhile c blank)
      · exact .inr (all c inPart)

end Bodies

end ArmorPolicy.Line
