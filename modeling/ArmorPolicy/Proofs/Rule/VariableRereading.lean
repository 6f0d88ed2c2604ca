import ArmorPolicy.Proofs.Rule.Rereading
import ArmorPolicy.Proofs.Rule.Variable
import Mathlib.Data.List.Perm.Subperm

/-!
# Assignments that are read back

Values are written between quotation marks when they are empty or hold a space, and only then.  From
such a text, or from a start of it, only legible values are read; and a start that a comment sign cuts
off holds fewer of these signs than the values.
-/

namespace ArmorPolicy

open Option List Text Line Assignment

variable {c : Char} {rest s : List Char} {values : SortedSet String}

namespace Assignment

/-! ## Pairs of quotation marks -/

/-- Between quotation marks stands nothing or a text with a space; the last pair may be open. -/
inductive Paired : List Char → Prop
  | nil : Paired []
  | plain {c : Char} {s : List Char} : c ≠ '"' → Paired s → Paired (c :: s)
  | quoted {inner s : List Char} :
      '"' ∉ inner → inner = [] ∨ ' ' ∈ inner → Paired s → Paired ('"' :: (inner ++ '"' :: s))
  | opened {inner : List Char} : '"' ∉ inner → Paired ('"' :: inner)

namespace Paired

variable {t : List Char}

theorem append_plain (noMark : '"' ∉ s) (paired : Paired rest) : Paired (s ++ rest) := by
  induction s with
  | nil => exact paired
  | cons c s ih =>
    rw [mem_cons, not_or] at noMark
    exact .plain (Ne.symm noMark.1) (ih noMark.2)

theorem of_cons (other : c ≠ '"') (paired : Paired (c :: s)) : Paired s := by
  cases paired with
  | plain _ paired => exact paired
  | quoted => exact absurd rfl other
  | opened => exact absurd rfl other

theorem of_append_plain (noMark : '"' ∉ s) (paired : Paired (s ++ rest)) : Paired rest := by
  induction s with
  | nil => exact paired
  | cons c s ih =>
    rw [mem_cons, not_or] at noMark
    exact ih noMark.2 (of_cons (Ne.symm noMark.1) paired)

theorem of_prefix (paired : Paired t) (isPrefix : s <+: t) : Paired s := by
  induction paired generalizing s with
  | nil =>
    rw [prefix_nil.mp isPrefix]
    exact .nil
  | plain other _ ih =>
    rcases prefix_cons_iff.mp isPrefix with rfl | ⟨u, rfl, inner⟩
    · exact .nil
    · exact .plain other (ih inner)
  | quoted noMark content _ ih =>
    rcases prefix_cons_iff.mp isPrefix with rfl | ⟨u, rfl, ⟨left, split⟩⟩
    · exact .nil
    · rcases append_eq_append_iff.mp split with ⟨v, rfl, _⟩ | ⟨v, rfl, beyond⟩
      · exact .opened fun mark => noMark (mem_append_left v mark)
      · rcases prefix_cons_iff.mp ⟨left, beyond.symm⟩ with rfl | ⟨w, rfl, behind⟩
        · rw [append_nil]
          exact .opened noMark
        · exact .quoted noMark content (ih behind)
  | opened noMark =>
    rcases prefix_cons_iff.mp isPrefix with rfl | ⟨u, rfl, inner⟩
    · exact .nil
    · exact .opened fun mark => noMark (inner.subset mark)

theorem trim (paired : Paired s) : Paired (trim s) := by
  obtain ⟨blanks, shape, blank⟩ := exists_blanks s
  have start : Paired (trimStart s) := by
    rw [shape] at paired
    refine of_append_plain (fun mark => ?_) paired
    exact absurd (blank _ mark) (by decide)
  obtain ⟨behind, split, _⟩ := exists_blanks_behind (trimStart s)
  exact start.of_prefix ⟨behind, split.symm⟩

theorem of_quoted {inner : List Char} (noMark : '"' ∉ inner) (paired : Paired ('"' :: (inner ++ '"' :: s))) :
    (inner = [] ∨ ' ' ∈ inner) ∧ Paired s := by
  generalize whole : '"' :: (inner ++ '"' :: s) = t at paired
  cases paired with
  | nil => cases whole
  | plain other _ => exact absurd (List.cons.inj whole).1.symm other
  | @quoted other behind absent content paired =>
    have first := upTo?_append noMark s
    rw [(List.cons.inj whole).2, upTo?_append absent behind] at first
    cases first
    exact ⟨content, paired⟩
  | opened absent =>
    refine absurd ?_ absent
    rw [← (List.cons.inj whole).2]
    simp

theorem firstValue? {word : List Char} (paired : Paired s) (found : firstValue? s = some (word, rest))
    (noComma : word.getLast? ≠ some ',') : Paired rest ∧ LegibleValue (valueOf word).toList := by
  rw [valueOf, String.toList_ofList]
  obtain ⟨behind, rfl, rfl, isWord⟩ := firstValue?_eq_some found
  cases isWord with
  | @quoted inner noMark =>
    have whole : '"' :: inner ++ ['"'] ++ behind = '"' :: (inner ++ '"' :: behind) := by simp
    rw [whole] at paired
    obtain ⟨content, behindPaired⟩ := of_quoted noMark paired
    rw [stripQuotes_quoted]
    exact ⟨behindPaired.trim, content.imp_right .inl⟩
  | plain _ solid noMark =>
    rw [stripQuotes_of_noMark noMark]
    exact ⟨(of_append_plain noMark paired).trim, .inr (.inr ⟨solid, noComma⟩)⟩

theorem valuesText {values : List String} (noMarks : ∀ value ∈ values, '"' ∉ value.toList)
    (paired : Paired rest) : Paired (valuesText values ++ rest) := by
  have one : ∀ (value : String) {t : List Char}, '"' ∉ value.toList → Paired t →
      Paired ((valueText value).toList ++ t) := by
    intro value t noMark paired
    rcases toList_valueText value with ⟨text, content⟩ | ⟨text, _⟩
    · rw [text, append_assoc, cons_append]
      exact .quoted noMark content paired
    · rw [text]
      exact append_plain noMark paired
  induction values with
  | nil => exact paired
  | cons value values ih =>
    rw [forall_mem_cons] at noMarks
    rw [valuesText_cons, append_assoc]
    refine one value noMarks.1 ?_
    split
    · exact paired
    · exact .plain (by decide) (ih noMarks.2)

theorem legible_of_separate (paired : Paired s) (success : separate s = .ok values) :
    ∀ value ∈ values.toList, LegibleValue value.toList :=
  forall_of_separate (fun _ _ _ paired found noComma => paired.firstValue? found noComma) paired.trim success

end Paired

/-! ## Where the values end -/

theorem exists_values?_prefix {blanks signs part : List Char}
    (blank : ∀ d ∈ blanks, isBlank d) (isSign : ∀ d ∈ signs, (d == '@'))
    (other : (c == '@') = false) (starts : StartsSolid (signs ++ c :: (part ++ rest)))
    (oneLine : '\n' ∉ signs ++ c :: (part ++ rest)) (readable : (looseEnding? rest).isSome) :
    ∃ behind comment,
      values? (blanks ++ (signs ++ c :: (part ++ rest))) = some (signs ++ c :: behind, comment) ∧
        behind <+: part := by
  have allowed := forall_notNewline_iff.mpr oneLine
  simp only [forall_mem_append, forall_mem_cons] at allowed
  obtain ⟨behind, comment, found, isPrefix⟩ := exists_shortest?_prefix allowed.2.2.1 readable
  have inner : shortestPart? notNewline looseEnding? (c :: (part ++ rest)) = some (c :: behind, comment) :=
    shortestPart?_eq_some_iff.mpr ⟨c, part ++ rest, behind, rfl, rfl, allowed.2.1, found⟩
  have stops : ∀ d ∈ (c :: (part ++ rest)).head?, (d == '@') = false := by
    rintro _ ⟨⟩
    exact other
  refine ⟨behind, comment, ?_, isPrefix⟩
  rw [values?_blanks blank starts oneLine, longest?_append_stop isSign stops inner]
  rfl

theorem exists_values?_comment {blanks : List Char} (blank : ∀ d ∈ blanks, isBlank d)
    (oneLine : '\n' ∉ rest) :
    ∃ behind comment, values? (blanks ++ '#' :: rest) = some ('#' :: behind, comment) := by
  have noSign : ∀ d ∈ ([] : List Char), (d == '@') := by simp
  have starts : StartsSolid ([] ++ '#' :: (rest ++ [])) := ⟨'#', rest ++ [], rfl, by decide⟩
  obtain ⟨behind, comment, found, _⟩ :=
    exists_values?_prefix blank noSign (by decide) starts (by simpa using oneLine) rfl
  exact ⟨behind, comment, by simpa using found⟩

/-! ## Characters of values -/

theorem exists_sign_of_separate (success : separate ('#' :: s) = .ok values) :
    ∃ value ∈ values.toList, '#' ∈ value.toList := by
  have starts : trim ('#' :: s) = '#' :: trimEnd s := by
    rw [trim, trimStart_cons_of_solid (by decide), trimEnd_cons_of_solid (by decide)]
  obtain ⟨words, separated, rfl⟩ := separated_of_separate success
  rw [starts] at separated
  cases separated with
  | @cons _ word rest words found _ _ =>
    refine ⟨valueOf word, SortedSet.mem_ofList.mpr mem_cons_self, ?_⟩
    rw [valueOf, String.toList_ofList]
    obtain ⟨behind, split, _, isWord⟩ := firstValue?_eq_some found
    cases isWord with
    | quoted => exact absurd (List.cons.inj split).1 (by decide)
    | plain nonempty _ noMark =>
      obtain ⟨c, tail, rfl⟩ := exists_cons_of_ne_nil nonempty
      obtain ⟨rfl, _⟩ := List.cons.inj split
      rw [stripQuotes_of_noMark noMark]
      exact mem_cons_self

theorem Separated.sublist {words : List (List Char)} (separated : Separated s words) :
    ((words.map valueOf).flatMap String.toList).Sublist s := by
  induction separated with
  | nil => exact List.Sublist.refl []
  | cons found _ _ ih =>
    rw [map_cons, flatMap_cons]
    exact (ih.append_left _).trans (toList_valueOf found).2

theorem count_le_of_separate (success : separate s = .ok values) (c : Char) :
    (values.toList.flatMap String.toList).count c ≤ s.count c := by
  obtain ⟨words, separated, rfl⟩ := separated_of_separate success
  obtain ⟨some, perm, sublist⟩ : (SortedSet.ofList (words.map valueOf)).toList.Subperm (words.map valueOf) :=
    subperm_of_subset (SortedSet.nodup_toList _) fun _ member => SortedSet.mem_ofList.mp member
  calc ((SortedSet.ofList (words.map valueOf)).toList.flatMap String.toList).count c
      = (some.flatMap String.toList).count c := (perm.flatMap_right _).symm.count_eq c
    _ ≤ ((words.map valueOf).flatMap String.toList).count c := (sublist.flatMap _).count_le c
    _ ≤ (trim s).count c := separated.sublist.count_le c
    _ ≤ s.count c := (trim_sublist s).count_le c

theorem count_valuesText (noSpace : c ≠ ' ') (noMark : c ≠ '"') (values : List String) :
    (valuesText values).count c = (values.flatMap String.toList).count c := by
  induction values with
  | nil => rfl
  | cons value values ih =>
    have one : (valueText value).toList.count c = value.toList.count c := by
      rcases toList_valueText value with ⟨text, _⟩ | ⟨text, _⟩
      · rw [text]
        simp [Ne.symm noMark]
      · rw [text]
    rw [valuesText_cons, flatMap_cons, count_append, count_append, one, ← ih]
    split
    next none =>
      rw [none]
      rfl
    · rw [count_cons_of_ne (Ne.symm noSpace)]

/-! ## Values that are read back -/

section Written

variable {comment found : String}
  (valued : values? (' ' :: (valuesText values.toList ++ comment.toList)) = some (s, found))
  (separated : separate s = .ok values) (valid : TrailingComment comment)

include valued separated valid

theorem unsigned_of_separate (starts : StartsSolid (valuesText values.toList))
    (oneLine : '\n' ∉ valuesText values.toList) : Unsigned (valuesText values.toList) := by
  have kept := count_le_of_separate separated '#'
  rw [← count_valuesText (by decide) (by decide)] at kept
  generalize valuesText values.toList = text at *
  rcases exists_signs text with all | ⟨signs, c, rest, shape, isSign, other, dropped⟩
  · exact unsigned_of_signs all
  · intro sign
    rw [dropped] at sign
    obtain ⟨front, behind, rfl⟩ := append_of_mem sign
    have line : text ++ comment.toList = signs ++ c :: (front ++ '#' :: (behind ++ comment.toList)) := by
      simp [shape]
    have oneLine : '\n' ∉ text ++ comment.toList := by simp [oneLine, valid.oneLine]
    have starts := starts.append comment.toList
    have space : ∀ c ∈ [' '], isBlank c := by decide
    rw [line] at starts oneLine valued
    obtain ⟨taken, again, cut, isPrefix⟩ := exists_values?_prefix space isSign other starts oneLine
      (Option.isSome_of_eq_some (looseEnding?_sign fun newline => oneLine (by simp_all)))
    obtain ⟨rfl, _⟩ := Prod.mk.inj (Option.some.inj (valued.symm.trans cut))
    have fewer := isPrefix.sublist.count_le '#'
    rw [shape] at kept
    simp only [count_append, count_cons, beq_self_eq_true, if_true] at kept
    omega

theorem trimStart_ne_nil_of_separate (nonempty : values.toList ≠ []) :
    trimStart (valuesText values.toList) ≠ [] := by
  intro empty
  have blank : ∀ c ∈ valuesText values.toList, isBlank c := by
    obtain ⟨blanks, split, blank⟩ := exists_blanks (valuesText values.toList)
    rw [empty, append_nil] at split
    rwa [split]
  rcases valid with rfl | ⟨rest, text, _, oneLine⟩
  · have blankValues : ∀ c ∈ s, isBlank c := by
      intro c member
      have inText := (values?_eq_some valued).1 member
      rw [String.toList_empty, append_nil, mem_cons] at inText
      rcases inText with rfl | inText
      · rfl
      · exact blank c inText
    exact nonempty (eq_nil_of_separate blankValues separated)
  · have line : ' ' :: (valuesText values.toList ++ comment.toList) =
        (' ' :: (valuesText values.toList ++ [' '])) ++ '#' :: rest := by simp [text]
    have blankBefore : ∀ c ∈ ' ' :: (valuesText values.toList ++ [' ']), isBlank c := by
      simp only [mem_cons, mem_append, not_mem_nil, or_false]
      rintro c (rfl | inText | rfl)
      · rfl
      · exact blank c inText
      · rfl
    obtain ⟨further, again, found⟩ := exists_values?_comment blankBefore oneLine
    rw [line] at valued
    obtain ⟨rfl, _⟩ := Prod.mk.inj (Option.some.inj (valued.symm.trans found))
    obtain ⟨value, member, sign⟩ := exists_sign_of_separate separated
    have counted : 0 < (valuesText values.toList).count '#' := by
      rw [count_valuesText (by decide) (by decide)]
      exact count_pos_iff.mpr (mem_flatMap.mpr ⟨value, member, sign⟩)
    exact absurd (blank _ (count_pos_iff.mp counted)) (by decide)

theorem legible_of_separate (noMarks : ∀ value ∈ values.toList, '"' ∉ value.toList)
    (oneLine : '\n' ∉ valuesText values.toList) (nonempty : values.toList ≠ []) :
    ∀ value ∈ values.toList, LegibleValue value.toList := by
  have solid := trimStart_ne_nil_of_separate valued separated valid nonempty
  have paired : Paired (valuesText values.toList) := by
    have whole := Paired.valuesText noMarks .nil
    rwa [append_nil] at whole
  refine Paired.legible_of_separate ?_ separated
  generalize valuesText values.toList = text at *
  obtain ⟨blanks, split, blank⟩ := exists_blanks text
  have starts := startsSolid_trimStart solid
  have oneLine : '\n' ∉ trimStart text := fun newline => oneLine ((trimStart_sublist text).subset newline)
  have paired : Paired (trimStart text) := by
    rw [split] at paired
    exact Paired.of_append_plain (fun mark => absurd (blank _ mark) (by decide)) paired
  have blankBefore : ∀ c ∈ ' ' :: blanks, isBlank c := forall_mem_cons.mpr ⟨by decide, blank⟩
  have line : ' ' :: (text ++ comment.toList) = ' ' :: blanks ++ (trimStart text ++ comment.toList) := by
    rw [cons_append, ← append_assoc, ← split]
  rw [line] at valued
  generalize trimStart text = part at *
  rcases exists_signs part with all | ⟨signs, c, rest, rfl, isSign, other, _⟩
  · have plain : ∀ {d : Char}, d ∈ part → d = '@' := fun member => by simpa using all _ member
    have ends : EndsSolid part := by
      obtain ⟨start, last, shape⟩ := (eq_nil_or_concat part).resolve_left solid
      rw [concat_eq_append] at shape
      have sign : last = '@' := plain (by simp [shape])
      exact ⟨start, last, shape, by rw [sign]; decide⟩
    have noComma : part.getLast? ≠ some ',' := fun last =>
      absurd (plain (mem_of_getLast? last)) (by decide)
    obtain ⟨behind, blankBehind, cut⟩ := values?_append blankBefore ⟨starts, ends, oneLine⟩ noComma
      (unsigned_of_signs all) valid
    obtain ⟨rfl, _⟩ := Prod.mk.inj (some.inj (valued.symm.trans cut))
    rw [← append_nil (part ++ behind)]
    refine Paired.append_plain (fun mark => ?_) .nil
    rcases mem_append.mp mark with inPart | inBlanks
    · exact absurd (plain inPart) (by decide)
    · exact absurd (blankBehind _ inBlanks) (by decide)
  · have line : signs ++ c :: rest ++ comment.toList = signs ++ c :: (rest ++ comment.toList) := by simp
    have startsLine := starts.append comment.toList
    have oneLine : '\n' ∉ signs ++ c :: rest ++ comment.toList := by simp_all [valid.oneLine]
    rw [line] at startsLine oneLine valued
    obtain ⟨taken, again, cut, isPrefix⟩ := exists_values?_prefix blankBefore isSign other startsLine oneLine
      (isSome_of_eq_some (looseEnding?_of_trailingComment valid))
    obtain ⟨rfl, _⟩ := Prod.mk.inj (some.inj (valued.symm.trans cut))
    have inner : c :: taken <+: c :: rest := cons_prefix_cons.mpr ⟨rfl, isPrefix⟩
    exact paired.of_prefix ((prefix_append_right_inj signs).mpr inner)

end Written

end Assignment

namespace Rule

variable {rule again : Rule} {line : List Char} {assignment : Assignment}

theorem Assigns.exists_values (assigns : rule.Assigns line assignment)
    (oneLine : '\n' ∉ assignment.written) (success : parse? rule.canonical = some (.ok again))
    (same : again.body.same? false rule.body = some true) :
    ∃ s comment,
      values? (' ' :: (assignment.written ++ rule.base.comment.toList)) = some (s, comment) ∧
        separate s = .ok assignment.values := by
  obtain ⟨⟨s, comment⟩, valued⟩ := isSome_iff_exists.mp
    (values?_isSome (s := ' ' :: (assignment.written ++ rule.base.comment.toList)) (by simp)
      (by simp [oneLine, assigns.comment.oneLine]))
  obtain ⟨word, member, lead⟩ := assigns.lead
  have found := assigns.shows.withoutModifiers_canonical (startsSolid_of_keyword member lead) assigns.audit
    assigns.decision (assigns.readParts?_statementText valued)
  obtain ⟨base, read⟩ : ∃ base, readAs? rule.kind rule.canonical.toList =
      some (((ofParts base ⟨assignment.name.toList, assignment.mode, s⟩).map RuleBody.assignment).map
        fun body => ⟨base, body⟩) := by
    rw [assigns.kind]
    exact ⟨_, congrArg (Option.map _) found⟩
  rw [parse?_canonical assigns.shows member lead read] at success
  obtain ⟨body, stated, rfl⟩ := Checked.map_eq_ok.mp (some.inj success)
  obtain ⟨content, assigned, rfl⟩ := Checked.map_eq_ok.mp stated
  obtain ⟨values, separated, made⟩ := Checked.bind_eq_ok.mp assigned
  obtain ⟨rfl, _⟩ := make_eq_ok made
  rw [assigns.body] at same
  have same := eq_of_beq (some.inj same)
  exact ⟨s, comment, valued, by rw [separated, ← same]⟩

theorem rereadFrom_assignment (success : readAs? .assignment line = some (.ok rule))
    (shape : rule.body = .assignment assignment) (depth : Nat) :
    rule.RereadFrom (rule.clean depth) ↔ assignment.Legible ∧ Assignment.Unsigned assignment.written := by
  obtain ⟨content, assigns⟩ := assigns_of_readAs? success
  obtain rfl : content = assignment := RuleBody.assignment.inj (assigns.body.symm.trans shape)
  constructor
  · rintro ⟨again, read, _, same⟩
    have oneLine : '\n' ∉ content.written := by
      intro newline
      rcases mem_valuesText newline with space | mark | ⟨value, member, inValue⟩
      · cases space
      · cases mark
      · exact (assigns.unmarked value member).2 inValue
    rw [parse?_clean] at read
    obtain ⟨s, comment, valued, separated⟩ := assigns.exists_values oneLine read (same?_of_same same)
    have legible : content.Legible := legible_of_separate valued separated assigns.comment
      (fun value member => (assigns.unmarked value member).1) oneLine assigns.nonempty
    have tidy := tidy_valuesText (assigns.readable legible) assigns.nonempty
    exact ⟨legible, unsigned_of_separate valued separated assigns.comment tidy.starts oneLine⟩
  · rintro ⟨legible, unsigned⟩
    obtain ⟨again, read, kind, _, same, _⟩ := (assigns.recovered legible unsigned).readBackFrom depth
    exact ⟨again, read, kind, same⟩

end Rule

end ArmorPolicy
