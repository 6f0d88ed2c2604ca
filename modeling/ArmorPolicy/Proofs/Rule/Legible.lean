import ArmorPolicy.Proofs.Line.Quotation
import ArmorPolicy.Proofs.Rule.Alias
import ArmorPolicy.Proofs.Rule.Dbus
import Mathlib.Data.List.Flatten

/-!
# Bodies of clauses that are read back

The values of clauses are written between quotation marks when they hold a space, and only then.  So a
word of such a text has a space or none of the signs that end it, and a value is read back exactly
where it is legible in this sense.

A body of clauses is written with a space before each clause.  On its canonical line it is read as far
as the first comma that can end the line, so it is cut short where a comment sign follows a comma, and
also where it ends with a blank.  Both leave out a sign that only a value can hold.
-/

namespace ArmorPolicy

open List Text Line

namespace Clauses

variable {body s rest text part : List Char} {key : String} {value : ClauseValue} {c : Char}
  {comment : String} {stop : Char → Bool}

/-! ## Words -/

theorem word_quoted {inner : List Char} (noMark : '"' ∉ inner) :
    word stop ('"' :: (inner ++ '"' :: s)) = (inner ++ (word stop s).1, (word stop s).2) := by
  change wordFrom stop true (inner ++ '"' :: s) = _
  induction inner with
  | nil => rfl
  | cons c inner ih =>
    rw [mem_cons, not_or] at noMark
    rw [cons_append, wordFrom, if_neg (Ne.symm noMark.1), ih noMark.2]
    rfl

/-- A word is read back: a space asks for quotation marks, or nothing in it ends a word. -/
def LegibleWord (stop : Char → Bool) (text : List Char) : Prop :=
  ' ' ∈ text ∨ ∀ c ∈ text, (isSeparator c || stop c) = false

instance (stop : Char → Bool) (text : List Char) : Decidable (LegibleWord stop text) :=
  inferInstanceAs (Decidable (_ ∨ _))

theorem word_quoteIfNeeded {text : String} (noMark : '"' ∉ text.toList)
    (legible : LegibleWord stop text.toList) (ends : EndsWord stop rest) :
    word stop ((quoteIfNeeded text).toList ++ rest) = (text.toList, rest) := by
  by_cases space : ' ' ∈ text.toList
  · rw [toList_quoteIfNeeded_of_space space, append_assoc, cons_append, singleton_append,
      word_quoted noMark, word_of_endsWord ends, append_nil]
  · rw [quoteIfNeeded_of_noSpace space]
    have plain : ∀ c ∈ text.toList, (isSeparator c || stop c) = false ∧ c ≠ '"' := fun c member =>
      ⟨legible.resolve_left space c member, ne_of_mem_of_not_mem member noMark⟩
    rw [word_append_plain plain, word_of_endsWord ends, append_nil]

/-! ## Texts with a space between all quotation marks -/

/-- Whatever stands between quotation marks holds a space. -/
inductive Marked : List Char → Prop
  | nil : Marked []
  | plain {c : Char} {s : List Char} : c ≠ '"' → Marked s → Marked (c :: s)
  | quoted {inner s : List Char} : '"' ∉ inner → ' ' ∈ inner → Marked s → Marked ('"' :: (inner ++ '"' :: s))

namespace Marked

theorem of_noMark (noMark : '"' ∉ s) : Marked s := by
  induction s with
  | nil => exact .nil
  | cons c s ih =>
    rw [mem_cons, not_or] at noMark
    exact .plain (Ne.symm noMark.1) (ih noMark.2)

theorem append (first : Marked s) (second : Marked rest) : Marked (s ++ rest) := by
  induction first with
  | nil => exact second
  | plain other _ ih => exact .plain other ih
  | quoted noMark space _ ih =>
    rw [cons_append, append_assoc, cons_append]
    exact .quoted noMark space ih

theorem quoteIfNeeded {text : String} (noMark : '"' ∉ text.toList) : Marked (quoteIfNeeded text).toList := by
  by_cases space : ' ' ∈ text.toList
  · rw [toList_quoteIfNeeded_of_space space, cons_append]
    exact .quoted noMark space .nil
  · rw [quoteIfNeeded_of_noSpace space]
    exact of_noMark noMark

theorem tail {c : Char} (marked : Marked (c :: s)) (other : c ≠ '"') : Marked s := by
  cases marked with
  | plain _ marked => exact marked
  | quoted _ _ _ => exact absurd rfl other

/-- A word with a separator or a stop sign in it stood between quotation marks there, and so has a
space. -/
theorem word (stop : Char → Bool) (marked : Marked s) :
    Marked (word stop s).2 ∧ LegibleWord stop (word stop s).1 := by
  induction marked with
  | nil => exact ⟨.nil, .inr (by simp [Clauses.word, wordFrom])⟩
  | plain other marked ih =>
    rename_i c s
    unfold Clauses.word at ih ⊢
    rw [wordFrom, if_neg other, Bool.not_false, Bool.true_and]
    cases ends : isSeparator c || stop c with
    | true => exact ⟨.plain other marked, .inr (by simp)⟩
    | false =>
      refine ⟨ih.1, ih.2.imp (mem_cons_of_mem c) fun solid => ?_⟩
      exact forall_mem_cons.mpr ⟨ends, solid⟩
  | quoted noMark space marked ih =>
    rw [word_quoted noMark]
    exact ⟨ih.1, .inl (mem_append_left _ space)⟩

theorem space_of_head? {c : Char} (marked : Marked s) (first : (Clauses.word stop s).1.head? = some c)
    (differs : s.head? ≠ some c) : ' ' ∈ (Clauses.word stop s).1 := by
  cases marked with
  | nil => cases first
  | plain other marked =>
    unfold Clauses.word at first
    rw [wordFrom, if_neg other] at first
    split at first
    · cases first
    · exact absurd first differs
  | quoted noMark space marked =>
    rw [word_quoted noMark]
    exact mem_append_left _ space

end Marked

def LegibleSingle (text : List Char) : Prop :=
  ' ' ∈ text ∨ (∀ c ∈ text, isSeparator c = false) ∧ text.head? ≠ some '('

abbrev LegibleItem : List Char → Prop := LegibleWord (· == ')')

instance (text : List Char) : Decidable (LegibleSingle text) := inferInstanceAs (Decidable (_ ∨ _ ∧ _))

theorem scanned_marked : Scanned Marked LegibleSingle LegibleItem where
  tail other marked := marked.tail other
  behind stop s marked := (marked.word stop).1
  single s marked notOpen := by
    by_cases space : ' ' ∈ (word (fun _ => false) s).1
    · exact .inl space
    · refine .inr ⟨?_, fun first => space (marked.space_of_head? first notOpen)⟩
      simpa using (marked.word fun _ => false).2.resolve_left space
  item _ _ marked := (marked.word _).2

theorem scanned_noMark : Scanned (fun _ => True) ('"' ∉ ·) ('"' ∉ ·) where
  tail _ _ := trivial
  behind _ _ _ := trivial
  single s _ _ := noMark_word _ s
  item _ _ _ := noMark_word _ _

/-! ## Writing clauses -/

/-- The text is read as the value wherever a value can end. -/
def Spells (text : List Char) (value : ClauseValue) : Prop :=
  ∀ key rest, EndsWord (fun _ => false) rest → Clauses.value key (text ++ rest) = .ok (value, rest)

theorem spells_single {text : String} (nonempty : text ≠ "") (noMark : '"' ∉ text.toList)
    (legible : LegibleSingle text.toList) : Spells (quoteIfNeeded text).toList (.single text) := by
  intro key rest ends
  have legibleWord : LegibleWord (fun _ => false) text.toList :=
    legible.imp_right fun plain c member => by rw [plain.1 c member]; rfl
  have read := word_quoteIfNeeded noMark legibleWord ends
  have notOpen : ∀ t, (quoteIfNeeded text).toList ++ rest ≠ '(' :: t := by
    intro t opens
    by_cases space : ' ' ∈ text.toList
    · rw [toList_quoteIfNeeded_of_space space] at opens
      exact absurd (List.cons.inj opens).1 (by decide)
    · obtain ⟨c, tail, shape⟩ := exists_cons_of_ne_nil (mt String.toList_eq_nil_iff.mp nonempty)
      rw [quoteIfNeeded_of_noSpace space, shape] at opens
      refine (legible.resolve_left space).2 ?_
      rw [shape, (List.cons.inj opens).1]
      rfl
  unfold Clauses.value
  split
  next t opens => exact absurd opens (notOpen t)
  · rw [read]
    simp [nonempty]

theorem spells_valueText (valid : IsValue value) : Spells (valueText value) value :=
  fun key _ ends => value_append key valid ends

def conditionOf (key : String) (text : List Char) : List Char := ' ' :: (key.toList ++ '=' :: text)

theorem readFrom_conditionOf (name : IsName key) :
    readFrom body (conditionOf key text) =
      Clauses.value key text >>= fun (value, rest) => (readFrom body rest).map (withCondition key value) := by
  obtain ⟨c, tail, shape, separates, _⟩ := name.1.exists_cons
  have equals : EndsWord isWordStop ('=' :: text) := by
    rintro _ ⟨⟩
    decide
  have read : step body (key.toList ++ '=' :: text) = stepBehind key ('=' :: text) := step_name name equals
  rw [conditionOf]
  rw [shape, cons_append] at read ⊢
  rw [readFrom_space separates, read, stepBehind]
  cases Clauses.value key text <;> rfl

/-- The text states a condition, or nothing where there is none. -/
inductive Stating (key : String) : Option ClauseValue → List Char → Prop
  | none : Stating key none []
  | some {value : ClauseValue} {text : List Char} :
      Spells text value → EndsSolid text → Stating key (some value) (conditionOf key text)

theorem endsWord_conditionOf (key : String) (text rest : List Char) :
    EndsWord (fun _ => false) (conditionOf key text ++ rest) :=
  endsWord_of_space _

theorem Stating.endsWord {value : Option ClauseValue} (states : Stating key value text)
    (ends : EndsWord (fun _ => false) rest) : EndsWord (fun _ => false) (text ++ rest) := by
  cases states with
  | none => exact ends
  | some _ _ => exact endsWord_conditionOf _ _ _

theorem Stating.readFrom_append {value : Option ClauseValue} (name : IsName key)
    (states : Stating key value text) (ends : EndsWord (fun _ => false) rest) :
    readFrom body (text ++ rest) = (readFrom body rest).map fun clauses =>
      { clauses with conditions := stated key value ++ clauses.conditions } := by
  cases states with
  | none =>
    rw [nil_append]
    cases readFrom body rest <;> rfl
  | @some value text spells _ =>
    have whole : conditionOf key text ++ rest = conditionOf key (text ++ rest) := by simp [conditionOf]
    rw [whole, readFrom_conditionOf name, spells key rest ends]
    rfl

/-- The text states conditions one after the other. -/
inductive Statings : List (String × Option ClauseValue) → List Char → Prop
  | nil : Statings [] []
  | cons {key : String} {value : Option ClauseValue} {text others : List Char}
      {entries : List (String × Option ClauseValue)} :
      IsName key → Stating key value text → Statings entries others →
      Statings ((key, value) :: entries) (text ++ others)

namespace Statings

variable {entries : List (String × Option ClauseValue)} (states : Statings entries text)
include states

theorem endsWord (ends : EndsWord (fun _ => false) rest) : EndsWord (fun _ => false) (text ++ rest) := by
  induction states with
  | nil => exact ends
  | cons _ first _ ih =>
    rw [append_assoc]
    exact first.endsWord ih

theorem readFrom_append (ends : EndsWord (fun _ => false) rest) :
    readFrom body (text ++ rest) = (readFrom body rest).map fun clauses =>
      { clauses with conditions := statedAll entries ++ clauses.conditions } := by
  induction states with
  | nil =>
    rw [nil_append]
    cases readFrom body rest <;> rfl
  | cons name first others ih =>
    rw [append_assoc, first.readFrom_append name (others.endsWord ends), ih]
    cases readFrom body rest with
    | error => rfl
    | ok clauses => simp [Except.map, statedAll]

theorem concat {value : Option ClauseValue} {more : List Char} (name : IsName key)
    (last : Stating key value more) : Statings (entries ++ [(key, value)]) (text ++ more) := by
  induction states with
  | nil =>
    have one := Statings.cons name last .nil
    rwa [append_nil] at one
  | cons otherName first _ ih =>
    rw [append_assoc]
    exact .cons otherName first ih

theorem endsSolid (nonempty : text ≠ []) : EndsSolid text := by
  induction states with
  | nil => exact absurd rfl nonempty
  | @cons key value text others _ _ first _ ih =>
    by_cases more : others = []
    · rw [more, append_nil] at nonempty ⊢
      cases first with
      | none => exact absurd rfl nonempty
      | some _ ends => exact ((ends.cons '=').append _).cons ' '
    · exact (ih more).append _

end Statings

/-! ## Signs that only values hold -/

/-- A separator, but for the space that is written before a clause. -/
def isBreak (c : Char) : Bool := isSeparator c && c != ' '

/-- A text that is written for some letters.  It has the breaks of these letters and no others. -/
structure Inked (letters text : List Char) : Prop where
  marked : Marked text
  breaks : text.countP isBreak = letters.countP isBreak
  oneLine : '\n' ∉ letters → '\n' ∉ text
  starts : text ≠ [] → ∃ part, text = ' ' :: part ∧ StartsSolid part
  ends : text.getLast? ≠ some ' '

theorem getLast?_append_ne (first : text.getLast? ≠ some c) (second : rest.getLast? ≠ some c) :
    (text ++ rest).getLast? ≠ some c := by
  intro last
  rw [getLast?_append, Option.or_eq_some_iff] at last
  rcases last with inRest | ⟨_, inText⟩
  · exact second inRest
  · exact first inText

theorem Inked.nil : Inked [] [] :=
  ⟨.nil, rfl, fun absent => absent, fun nonempty => absurd rfl nonempty, by simp⟩

theorem Inked.append {letters more : List Char} (first : Inked letters text) (second : Inked more rest) :
    Inked (letters ++ more) (text ++ rest) where
  marked := first.marked.append second.marked
  breaks := by rw [countP_append, countP_append, first.breaks, second.breaks]
  oneLine absent := by
    rw [mem_append, not_or] at absent ⊢
    exact ⟨first.oneLine absent.1, second.oneLine absent.2⟩
  starts nonempty := by
    by_cases none : text = []
    · rw [none, nil_append] at nonempty ⊢
      exact second.starts nonempty
    · obtain ⟨part, rfl, starts⟩ := first.starts none
      exact ⟨part ++ rest, rfl, starts.append rest⟩
  ends := getLast?_append_ne first.ends second.ends

theorem countP_quoteIfNeeded {p : Char → Bool} (noMark : p '"' = false) (text : String) :
    (quoteIfNeeded text).toList.countP p = text.toList.countP p := by
  by_cases space : ' ' ∈ text.toList
  · rw [toList_quoteIfNeeded_of_space space]
    simp [noMark]
  · rw [quoteIfNeeded_of_noSpace space]

theorem mem_quoteIfNeeded {text : String} (member : c ∈ (quoteIfNeeded text).toList) :
    c = '"' ∨ c ∈ text.toList := by
  by_cases space : ' ' ∈ text.toList
  · rw [toList_quoteIfNeeded_of_space space] at member
    simpa [or_comm, or_assoc] using member
  · rw [quoteIfNeeded_of_noSpace space] at member
    exact .inr member

theorem isBreak_eq_false (plain : isSeparator c = false) : isBreak c = false := by
  simp [isBreak, plain]

theorem inked_conditionOf (name : IsName key) {text : String} (noMark : '"' ∉ text.toList) :
    Inked text.toList (conditionOf key (quoteIfNeeded text).toList) where
  marked := by
    have front : Marked (' ' :: (key.toList ++ ['='])) := by
      refine .of_noMark fun mark => ?_
      simp only [mem_cons, mem_append, not_mem_nil, or_false] at mark
      rcases mark with space | inKey | equals
      · cases space
      · exact (name.1.plain _ inKey).2 rfl
      · cases equals
    simpa [conditionOf] using front.append (.quoteIfNeeded noMark)
  breaks := by
    have inKey : key.toList.countP isBreak = 0 :=
      countP_eq_zero.mpr fun c member => by simp [isBreak_eq_false (name.1.plain c member).1]
    have space : isBreak ' ' = false := by decide
    have equals : isBreak '=' = false := by decide
    rw [conditionOf, countP_cons_of_neg (by simp [space]), countP_append, inKey,
      countP_cons_of_neg (by simp [equals]), countP_quoteIfNeeded (by decide), Nat.zero_add]
  oneLine absent newline := by
    simp only [conditionOf, mem_cons, mem_append] at newline
    rcases newline with space | inKey | equals | inText
    · cases space
    · exact absurd (name.1.plain _ inKey).1 (by decide)
    · cases equals
    · rcases mem_quoteIfNeeded inText with mark | inText
      · cases mark
      · exact absent inText
  starts _ := ⟨_, rfl, name.1.solidWord.starts.append _⟩
  ends := by
    have front : (' ' :: (key.toList ++ ['='])).getLast? ≠ some ' ' := by
      rw [← cons_append, getLast?_concat]
      decide
    have written : (quoteIfNeeded text).toList.getLast? ≠ some ' ' := by
      by_cases space : ' ' ∈ text.toList
      · rw [toList_quoteIfNeeded_of_space space, getLast?_concat]
        decide
      · rw [quoteIfNeeded_of_noSpace space]
        exact fun last => space (mem_of_getLast? last)
    simpa [conditionOf] using getLast?_append_ne front written

theorem inked_listing {steps : List Step} (valid : ∀ found ∈ steps, found.Valid) :
    Inked [] (listing steps) := by
  have plain := plain_listing valid
  refine ⟨.of_noMark fun mark => ?_, ?_, fun _ newline => ?_, fun nonempty => ?_, fun last => ?_⟩
  · rcases plain _ mark with space | ⟨_, noMark⟩
    · cases space
    · exact noMark rfl
  · refine countP_eq_zero.mpr fun c member => ?_
    rcases plain c member with rfl | ⟨solid, _⟩
    · decide
    · simp [isBreak_eq_false solid]
  · rcases plain _ newline with space | ⟨solid, _⟩
    · cases space
    · cases solid
  · obtain ⟨part, shape, body⟩ := exists_plainBody valid
    have some : part ≠ [] := by
      rintro rfl
      exact nonempty shape
    exact ⟨part, by rw [shape, spacedPart_of_ne_nil some], (body.tidy some).starts⟩
  · obtain ⟨start, shape⟩ := getLast?_eq_some_iff.mp last
    have nonempty : steps ≠ [] := by
      rintro rfl
      cases last
    have ends := endsSolid_listing valid nonempty
    rw [shape] at ends
    exact not_endsSolid_of_blank (by decide) start ends

/-! ## Conditions that a body gives -/

theorem letters_statedAll_sublist {entries others : List (String × Option ClauseValue)}
    (within : entries.Sublist others) :
    (letters (statedAll entries)).Sublist (letters (statedAll others)) :=
  (within.flatMap _).flatMap _

/-- A body is read as conditions with the given values, in any order. -/
def Gives (body : List Char) (entries : List (String × Option ClauseValue)) : Prop :=
  ∃ clauses, read body = .ok clauses ∧ clauses.conditions.Perm (statedAll entries)

namespace Gives

variable {entries : List (String × Option ClauseValue)} (gives : Gives body entries)
include gives

theorem holds {Inv Single Item : List Char → Prop} (scanned : Scanned Inv Single Item) (inv : Inv body) :
    ∀ entry ∈ statedAll entries, Holds Single Item entry.2 := by
  obtain ⟨clauses, success, perm⟩ := gives
  intro entry member
  exact (scanned.readFrom inv success).1 entry (perm.mem_iff.mpr member)

theorem letters_subset : letters (statedAll entries) ⊆ body.dropWhile isSeparator := by
  obtain ⟨clauses, success, perm⟩ := gives
  intro c member
  have same : (letters clauses.conditions).Perm (letters (statedAll entries)) := perm.flatMap_right _
  exact (scanned_noMark.readFrom trivial success).2.subset (same.mem_iff.mpr member)

theorem countP_le (p : Char → Bool) : (letters (statedAll entries)).countP p ≤ body.countP p := by
  obtain ⟨clauses, success, perm⟩ := gives
  have same : (letters clauses.conditions).Perm (letters (statedAll entries)) := perm.flatMap_right _
  rw [← same.countP_eq p]
  exact ((scanned_noMark.readFrom trivial success).2.trans (dropWhile_sublist _)).countP_le

end Gives

/-! ## Where the line ends -/

theorem body?_of_uncommented (tidy : part ≠ [] → Tidy part)
    (uncommented : Uncommented part) (valid : TrailingComment comment) :
    body? notNewline (spacedPart part ++ ',' :: comment.toList) = some (spacedPart part, comment) := by
  refine body?_spacedPart valid (fun nonempty => (tidy nonempty).starts)
    (forall_notNewline_iff.mpr (oneLine_of_tidy tidy)) ?_
  rintro start suffix rfl nonempty
  exact commaEnding?_of_uncommented uncommented (tidy (by simp [nonempty])).ends
    (suffix_append start suffix) nonempty _

theorem exists_break {left : List Char} {found : String} (nonempty : left ≠ [])
    (last : left.getLast? ≠ some ' ')
    (ending : commaEnding? (left ++ ',' :: comment.toList) = some found) : 0 < left.countP isBreak := by
  rw [countP_pos_iff]
  rcases blank_or_solid left with blank | ⟨blanks, c, tail, rfl, blank, solid⟩
  · obtain ⟨start, c, split⟩ := (eq_nil_or_concat left).resolve_left nonempty
    rw [concat_eq_append] at split
    have blankLast : isBlank c := blank c (by simp [split])
    refine ⟨c, by simp [split], ?_⟩
    rw [split, getLast?_concat] at last
    simp only [isBreak, isSeparator, blankLast, Bool.true_or, Bool.true_and, bne_iff_ne]
    exact fun space => last (by rw [space])
  · rw [append_assoc, commaEnding?_blanks blank, cons_append] at ending
    by_cases comma : c = ','
    · exact ⟨',', by simp [comma], by decide⟩
    · rw [commaEnding?_of_solid solid comma] at ending
      cases ending

theorem exists_shortest? (last : part.getLast? ≠ some ' ') (oneLine : '\n' ∉ part)
    (valid : TrailingComment comment) :
    ∃ front found, shortest? notNewline commaEnding? (part ++ ',' :: comment.toList) = some (front, found) ∧
      (front = part ∧ Uncommented part ∨ front.countP isBreak < part.countP isBreak) := by
  have readable := commaEnding?_of_trailingComment valid
  obtain ⟨front, found, shortest, ⟨left, rfl⟩⟩ :=
    exists_shortest?_prefix (forall_notNewline_iff.mpr oneLine) (Option.isSome_of_eq_some readable)
  refine ⟨front, found, shortest, ?_⟩
  obtain ⟨rest, split, _, ending, earlier⟩ := shortest?_eq_some shortest
  obtain rfl : left ++ ',' :: comment.toList = rest := by
    rw [append_assoc] at split
    exact append_cancel_left split
  by_cases whole : left = []
  · rw [whole, append_nil]
    rw [whole, nil_append] at earlier
    refine .inl ⟨rfl, Aliasing.uncommented_of_earlier earlier ?_⟩
    simpa [whole, valid.oneLine] using oneLine
  · refine .inr ?_
    have lost : 0 < left.countP isBreak := by
      refine exists_break whole (fun isSpace => last ?_) ending
      rw [getLast?_append, isSpace]
      rfl
    rw [countP_append]
    omega

theorem exists_body? (starts : part ≠ [] → StartsSolid part) (last : part.getLast? ≠ some ' ')
    (oneLine : '\n' ∉ part) (valid : TrailingComment comment) :
    ∃ body found, body? notNewline (spacedPart part ++ ',' :: comment.toList) = some (body, found) ∧
      (body = spacedPart part ∧ Uncommented part ∨
        body.countP isBreak < (spacedPart part).countP isBreak) := by
  by_cases empty : part = []
  · subst empty
    have uncommented : Uncommented [] := by simp [Uncommented]
    exact ⟨[], comment, body?_of_uncommented (fun some => absurd rfl some) uncommented valid,
      .inl ⟨rfl, uncommented⟩⟩
  · obtain ⟨front, found, shortest, cut⟩ := exists_shortest? last oneLine valid
    obtain ⟨c, tail, rfl, solid⟩ := starts empty
    refine ⟨' ' :: front, found, ?_, ?_⟩
    · rw [spacedPart, cons_append, cons_append, body?_space solid, ← cons_append, shortest]
      rfl
    · rcases cut with ⟨rfl, uncommented⟩ | fewer
      · exact .inl ⟨rfl, uncommented⟩
      · refine .inr ?_
        rwa [spacedPart, countP_cons_of_neg (by decide), countP_cons_of_neg (by decide)]

/-! ## Conditions of one value -/

theorem endsSolid_quoteIfNeeded {text : String} (nonempty : text ≠ "")
    (legible : LegibleSingle text.toList) : EndsSolid (quoteIfNeeded text).toList := by
  by_cases space : ' ' ∈ text.toList
  · rw [toList_quoteIfNeeded_of_space space]
    exact ⟨'"' :: text.toList, '"', rfl, by decide⟩
  · rw [quoteIfNeeded_of_noSpace space]
    have word : SolidWord text := by
      refine ⟨nonempty, fun c member => ?_⟩
      have plain := (legible.resolve_left space).1 c member
      rw [isSeparator, Bool.or_eq_false_iff] at plain
      exact isBlank_eq_false_iff.mp plain.1
    exact word.ends

/-- The keys of conditions that take one value, and the values where there are any. -/
abbrev Singles : Type := List (String × Option String)

namespace Singles

def written (singles : Singles) : List Char :=
  singles.flatMap fun single => single.2.elim [] fun value => conditionOf single.1 (quoteIfNeeded value).toList

def entries (singles : Singles) : List (String × Option ClauseValue) :=
  singles.map fun single => (single.1, single.2.map .single)

def Legible (singles : Singles) : Prop :=
  ∀ single ∈ singles, ∀ value ∈ single.2, LegibleSingle value.toList

instance (singles : Singles) : Decidable singles.Legible :=
  inferInstanceAs (Decidable (∀ single ∈ singles, ∀ value ∈ single.2, LegibleSingle value.toList))

/-- Values as a body gives them. -/
def Given (singles : Singles) : Prop :=
  ∀ single ∈ singles, ∀ value ∈ single.2, value ≠ "" ∧ '"' ∉ value.toList

variable {singles : Singles} {entries : List (String × Option ClauseValue)}

theorem mem_statedAll (within : singles.entries ⊆ entries)
    {single : String × Option String} {value : String} (member : single ∈ singles)
    (found : value ∈ single.2) : (single.1, .single value) ∈ statedAll entries := by
  refine mem_flatMap.mpr ⟨_, within (mem_map_of_mem member), mem_stated.mpr ⟨rfl, ?_⟩⟩
  rw [Option.mem_def.mp found]
  rfl

variable (names : ∀ single ∈ singles, IsName single.1) (given : singles.Given)
include names given

theorem inked_written : Inked (letters (statedAll singles.entries)) singles.written := by
  induction singles with
  | nil => exact .nil
  | cons single singles ih =>
    obtain ⟨named, names⟩ := forall_mem_cons.mp names
    obtain ⟨valued, given⟩ := forall_mem_cons.mp given
    have others := ih names given
    obtain ⟨key, value⟩ := single
    cases value with
    | none => exact others
    | some value =>
      have first := inked_conditionOf named (valued value rfl).2
      simpa [written, entries, letters, statedAll, stated, ClauseValue.letters, ClauseValue.items]
        using first.append others

theorem statings (legible : singles.Legible) : Statings singles.entries singles.written := by
  induction singles with
  | nil => exact .nil
  | cons single singles ih =>
    obtain ⟨named, names⟩ := forall_mem_cons.mp names
    obtain ⟨valued, given⟩ := forall_mem_cons.mp given
    obtain ⟨readable, legible⟩ := forall_mem_cons.mp legible
    have others := ih names given legible
    obtain ⟨key, value⟩ := single
    refine .cons named ?_ others
    cases value with
    | none => exact .none
    | some value =>
      obtain ⟨nonempty, noMark⟩ := valued value rfl
      have readable := readable value rfl
      exact .some (spells_single nonempty noMark readable) (endsSolid_quoteIfNeeded nonempty readable)

omit names given

theorem legible_of_gives (within : singles.entries ⊆ entries)
    (marked : Marked body) (gives : Gives body entries) : singles.Legible := by
  intro single member value found
  exact (gives.holds scanned_marked marked _ (mem_statedAll within member found)).2

theorem given_of_gives (within : singles.entries ⊆ entries)
    (gives : Gives body entries) : singles.Given := by
  intro single member value found
  exact gives.holds scanned_noMark trivial _ (mem_statedAll within member found)

end Singles

/-! ## Accesses -/

section Accesses

variable {access : Access} {allowed : List String} (names : ∀ word ∈ allowed, IsName word)
  (isFor : access.IsFor allowed)
include names isFor

theorem inked_access : Inked [] access.text.toList := by
  rw [Access.text_toList]
  exact inked_listing (access.valid_steps names isFor)

theorem readFrom_access (ends : EndsWord (fun _ => false) rest) :
    readFrom body (access.text.toList ++ rest) = (readFrom body rest).map fun clauses =>
      { clauses with access := access.words ++ clauses.access } := by
  rw [Access.text_toList, readFrom_listing_append (access.valid_steps names isFor) ends]
  cases access with
  | all => rfl
  | only set => rfl

theorem read_statings {entries : List (String × Option ClauseValue)} (states : Statings entries text) :
    read (access.text.toList ++ text) = .ok ⟨access.words, statedAll entries⟩ := by
  have ends : EndsWord (fun _ => false) [] := fun c first => by cases first
  have behind := states.endsWord ends
  rw [append_nil] at behind
  rw [read, readFrom_access names isFor behind, ← append_nil text, states.readFrom_append ends,
    append_nil, readFrom_nil]
  simp [Except.map]

end Accesses

end Clauses

end ArmorPolicy
