import ArmorPolicy.Proofs.Data.Sorted
import ArmorPolicy.Proofs.Glob.Literal
import ArmorPolicy.Proofs.Rule.Dispatch
import ArmorPolicy.Proofs.Rule.Scan

/-!
# Clauses that are read back

In a body without quotation marks a word reaches up to the next separator or stop sign.  Clauses
written with a space before each are read back one by one, and what is read from a body can be
written that way.
-/

namespace ArmorPolicy

open Checked Text Line

namespace Clauses

variable {stop : Char → Bool} {body s rest : List Char} {value : ClauseValue}
  {pattern : Extent Pattern} {found : Step} {key : String}

theorem isSeparator_space : isSeparator ' ' := rfl

/-! ## Words -/

/-- A value without separators and quotation marks that is not empty. -/
structure Bare (value : String) : Prop where
  nonempty : value ≠ ""
  plain : ∀ c ∈ value.toList, isSeparator c = false ∧ c ≠ '"'

namespace Bare

variable {value : String}

theorem solidWord (bare : Bare value) : SolidWord value := by
  refine ⟨bare.nonempty, fun c member => ?_⟩
  have separates := (bare.plain c member).1
  rw [isSeparator, Bool.or_eq_false_iff] at separates
  exact isBlank_eq_false_iff.mp separates.1

theorem exists_cons (bare : Bare value) :
    ∃ c tail, value.toList = c :: tail ∧ isSeparator c = false ∧ c ≠ '"' := by
  obtain ⟨c, tail, text⟩ := List.exists_cons_of_ne_nil bare.solidWord.ne_nil
  exact ⟨c, tail, text, bare.plain c (by simp [text])⟩

end Bare

/-- Behind a word stands nothing, a separator or a stop sign. -/
def EndsWord (stop : Char → Bool) (rest : List Char) : Prop :=
  ∀ c ∈ rest.head?, (isSeparator c || stop c) = true ∧ c ≠ '"'

theorem word_of_endsWord (ends : EndsWord stop rest) : word stop rest = ([], rest) := by
  cases rest with
  | nil => rfl
  | cons c tail =>
    obtain ⟨stops, noQuote⟩ := ends c rfl
    simp [word, wordFrom, noQuote, stops]

theorem word_append_plain {part : List Char}
    (plain : ∀ c ∈ part, (isSeparator c || stop c) = false ∧ c ≠ '"') :
    word stop (part ++ s) = (part ++ (word stop s).1, (word stop s).2) := by
  unfold word
  induction part with
  | nil => rfl
  | cons c part ih =>
    rw [List.forall_mem_cons] at plain
    rw [List.cons_append, wordFrom, if_neg plain.1.2, plain.1.1, ih plain.2]
    rfl

theorem word_append {value : String} (bare : Bare value) (unstopped : ∀ c ∈ value.toList, stop c = false)
    (ends : EndsWord stop rest) : word stop (value.toList ++ rest) = (value.toList, rest) := by
  have plain : ∀ c ∈ value.toList, (isSeparator c || stop c) = false ∧ c ≠ '"' := fun c member =>
    ⟨by rw [(bare.plain c member).1, unstopped c member]; rfl, (bare.plain c member).2⟩
  rw [word_append_plain plain, word_of_endsWord ends, List.append_nil]

/-! ## Lists -/

theorem group_of_end : group (')' :: rest) = .ok ([], rest) := by
  rw [group]
  split
  next h => cases h
  next t h => cases h; rfl
  next c t notClose h => cases h; exact absurd rfl notClose

theorem group_space : group (' ' :: s) = group s := by
  rw [group, group.eq_def s]
  rfl

/-- An item of a list: it does not hold the sign that ends the list. -/
def IsItem (item : String) : Prop := Bare item ∧ ')' ∉ item.toList

theorem group_word {c : Char} {t item : List Char} (text : s = c :: t) (starts : isSeparator c = false)
    (notEnd : c ≠ ')') (read : word (· == ')') s = (item, rest)) (shorter : rest.length < s.length) :
    group s = (group rest).map fun (items, rest) => (String.ofList item :: items, rest) := by
  subst text
  have start : (c :: t).dropWhile isSeparator = c :: t := by
    rw [List.dropWhile_cons, starts]
    rfl
  rw [group]
  split
  next h =>
    rw [start] at h
    cases h
  next u h =>
    rw [start] at h
    exact absurd (List.cons.inj h).1 notEnd
  next d u _ h =>
    rw [start] at h
    simp only [← h, read, shorter, dite_true]

theorem group_item {item : String} (valid : IsItem item) (ends : EndsWord (· == ')') rest) :
    group (item.toList ++ rest) = (group rest).map fun (items, rest) => (item :: items, rest) := by
  obtain ⟨bare, noEnd⟩ := valid
  obtain ⟨c, tail, text, separates, noQuote⟩ := bare.exists_cons
  have read : word (· == ')') (item.toList ++ rest) = (item.toList, rest) := by
    refine word_append bare ?_ ends
    intro d member
    rw [beq_eq_false_iff_ne]
    rintro rfl
    exact noEnd member
  have notEnd : c ≠ ')' := by
    rintro rfl
    exact noEnd (by rw [text]; exact List.mem_cons_self)
  have shorter : rest.length < (item.toList ++ rest).length := by
    rw [List.length_append, text, List.length_cons]
    omega
  have whole : item.toList ++ rest = c :: (tail ++ rest) := by rw [text, List.cons_append]
  have first := group_word whole separates notEnd read shorter
  rwa [String.ofList_toList] at first

theorem endsWord_of_space (s : List Char) : EndsWord stop (' ' :: s) := by
  intro c first
  cases first
  exact ⟨rfl, by decide⟩

theorem group_flatMap {items : List String} (valid : ∀ item ∈ items, IsItem item) (rest : List Char) :
    group (items.flatMap (fun item => ' ' :: item.toList) ++ ')' :: rest) = .ok (items, rest) := by
  induction items with
  | nil => exact group_of_end
  | cons item items ih =>
    rw [List.forall_mem_cons] at valid
    have ends : EndsWord (· == ')') (items.flatMap (fun item => ' ' :: item.toList) ++ ')' :: rest) := by
      cases items with
      | nil =>
        intro c first
        cases first
        decide
      | cons second items => exact endsWord_of_space _
    rw [List.flatMap_cons, List.append_assoc, List.cons_append, group_space, group_item valid.1 ends,
      ih valid.2]
    rfl

/-! ## Steps -/

/-- A word that a body reads as an access or as a key. -/
def IsName (name : String) : Prop := Bare name ∧ ∀ c ∈ name.toList, isWordStop c = false

instance (name : String) : Decidable (IsName name) :=
  decidable_of_iff
    (name ≠ "" ∧ ∀ c ∈ name.toList, (isSeparator c = false ∧ c ≠ '"') ∧ isWordStop c = false)
    ⟨fun plain => ⟨⟨plain.1, fun c member => (plain.2 c member).1⟩, fun c member => (plain.2 c member).2⟩,
      fun name => ⟨name.1.nonempty, fun c member => ⟨name.1.plain c member, name.2 c member⟩⟩⟩

def IsValue : ClauseValue → Prop
  | .single value => Bare value ∧ value.toList.head? ≠ some '('
  | .list items => ∀ item ∈ items, IsItem item

def valueText : ClauseValue → List Char
  | .single value => value.toList
  | .list items => '(' :: ((spaced items).toList ++ [')'])

theorem group_spaced {items : List String} (valid : ∀ item ∈ items, IsItem item) (rest : List Char) :
    group ((spaced items).toList ++ ')' :: rest) = .ok (items, rest) := by
  have solid : ∀ item ∈ items, SolidWord item := fun item member => (valid item member).1.solidWord
  have listed := group_flatMap valid rest
  rw [← spacedPart_spaced solid] at listed
  cases text : (spaced items).toList with
  | nil =>
    rw [text] at listed
    exact listed
  | cons c tail =>
    rw [text] at listed
    exact group_space.symm.trans listed

theorem value_append (key : String) (valid : IsValue value) (ends : EndsWord (fun _ => false) rest) :
    Clauses.value key (valueText value ++ rest) = .ok (value, rest) := by
  cases value with
  | single value =>
    obtain ⟨bare, notOpen⟩ := valid
    have read := word_append bare (fun _ _ => rfl) ends
    obtain ⟨c, tail, text, _⟩ := bare.exists_cons
    have first : c ≠ '(' := by
      rintro rfl
      exact notOpen (by rw [text]; rfl)
    rw [valueText]
    unfold Clauses.value
    split
    next t h =>
      rw [text, List.cons_append] at h
      exact absurd (List.cons.inj h).1 first
    · rw [read]
      simp [bare.nonempty]
  | list items =>
    have read := group_spaced valid rest
    rw [valueText, List.cons_append, List.append_assoc, List.singleton_append, Clauses.value, read]
    rfl

def Step.text : Step → List Char
  | .access [word] => word.toList
  | .access words => '(' :: ((spaced words).toList ++ [')'])
  | .condition key value => key.toList ++ '=' :: valueText value

def Step.Valid : Step → Prop
  | .access words => ∀ word ∈ words, IsName word
  | .condition key value => IsName key ∧ IsValue value

theorem IsName.isItem {name : String} (valid : IsName name) : IsItem name :=
  ⟨valid.1, fun close => absurd (valid.2 ')' close) (by decide)⟩

theorem endsWord_mono {other : Char → Bool} (ends : EndsWord (fun _ => false) rest) : EndsWord other rest := by
  intro c first
  obtain ⟨separates, noQuote⟩ := ends c first
  rw [Bool.or_false] at separates
  exact ⟨by rw [separates]; rfl, noQuote⟩

/-- What a step makes of a word and the text behind it. -/
def stepBehind (name : String) : List Char → Checked (Step × List Char)
  | '=' :: rest => (Clauses.value name rest).map fun (value, rest) => (.condition name value, rest)
  | rest => .ok (.access [name], rest)

theorem step_name {name : String} (valid : IsName name) (ends : EndsWord isWordStop rest) :
    step body (name.toList ++ rest) = stepBehind name rest := by
  have read := word_append valid.1 valid.2 ends
  obtain ⟨c, tail, text, _⟩ := valid.1.exists_cons
  have unstopped : isWordStop c = false := valid.2 c (by simp [text])
  unfold step
  split
  next t h =>
    rw [text, List.cons_append] at h
    rw [(List.cons.inj h).1] at unstopped
    cases unstopped
  next t h =>
    rw [text, List.cons_append] at h
    rw [(List.cons.inj h).1] at unstopped
    cases unstopped
  · rw [read]
    simp only [String.ofList_toList]
    rfl

theorem step_append (valid : found.Valid) (ends : EndsWord (fun _ => false) rest) :
    step body (found.text ++ rest) = .ok (found, rest) := by
  have list : ∀ words : List String, (∀ word ∈ words, IsName word) →
      step body ('(' :: ((spaced words).toList ++ [')']) ++ rest) = .ok (.access words, rest) := by
    intro words names
    have read := group_spaced (fun word member => (names word member).isItem) rest
    rw [List.cons_append, List.append_assoc, List.singleton_append, step, read]
    rfl
  cases found with
  | access words =>
    match words, valid with
    | [], valid => exact list [] valid
    | [word], valid =>
      rw [Step.text, step_name (valid word (by simp)) (endsWord_mono ends)]
      unfold stepBehind
      split
      next t => exact absurd (ends '=' rfl).1 (by decide)
      · rfl
    | first :: second :: words, valid => exact list _ valid
  | condition key value =>
    obtain ⟨name, isValue⟩ := valid
    have equals : EndsWord isWordStop ('=' :: (valueText value ++ rest)) := by
      intro c first
      cases first
      decide
    rw [Step.text, List.append_assoc, List.cons_append, step_name name equals]
    simp only [stepBehind, value_append key isValue ends]
    rfl

/-! ## Bodies -/

theorem readFrom_nil : readFrom body [] = .ok {} := by
  rw [readFrom]
  rfl

theorem exists_cons_text (valid : found.Valid) :
    ∃ c tail, found.text = c :: tail ∧ isSeparator c = false := by
  cases found with
  | access words =>
    match words, valid with
    | [], _ => exact ⟨'(', _, rfl, by decide⟩
    | [word], valid =>
      obtain ⟨c, tail, text, separates, _⟩ := (valid word (by simp)).1.exists_cons
      exact ⟨c, tail, text, separates⟩
    | _ :: _ :: _, _ => exact ⟨'(', _, rfl, by decide⟩
  | condition key value =>
    obtain ⟨c, tail, text, separates, _⟩ := valid.1.1.exists_cons
    exact ⟨c, tail ++ '=' :: valueText value, by rw [Step.text, text]; rfl, separates⟩

theorem readFrom_space {c : Char} {t : List Char} (starts : isSeparator c = false) :
    readFrom body (' ' :: c :: t) =
      step body (c :: t) >>= fun (found, rest) => (readFrom body rest).map (Step.addTo · found) := by
  have start : (' ' :: c :: t).dropWhile isSeparator = c :: t := by
    rw [List.dropWhile_cons, if_pos isSeparator_space, List.dropWhile_cons, starts]
    rfl
  rw [readFrom]
  split
  next h =>
    rw [start] at h
    cases h
  next d u h =>
    rw [start] at h
    obtain ⟨rfl, rfl⟩ := List.cons.inj h
    split
    next fault failed => simp only [failed, bind, Except.bind]
    next found behind read => simp only [read, bind, Except.bind]

theorem readFrom_append (valid : found.Valid) (ends : EndsWord (fun _ => false) rest) :
    readFrom body (' ' :: (found.text ++ rest)) = (readFrom body rest).map (Step.addTo · found) := by
  obtain ⟨c, tail, text, separates⟩ := exists_cons_text valid
  have read : step body (found.text ++ rest) = .ok (found, rest) := step_append valid ends
  rw [text, List.cons_append] at read ⊢
  rw [readFrom_space separates, read]
  rfl

def listing (steps : List Step) : List Char := steps.flatMap fun found => ' ' :: found.text

theorem readFrom_listing_append {steps : List Step} (valid : ∀ found ∈ steps, found.Valid)
    (ends : EndsWord (fun _ => false) rest) :
    readFrom body (listing steps ++ rest) =
      (readFrom body rest).map fun clauses => steps.foldr (fun found clauses => found.addTo clauses) clauses := by
  induction steps with
  | nil =>
    rw [listing, List.flatMap_nil, List.nil_append]
    cases readFrom body rest <;> rfl
  | cons found steps ih =>
    rw [List.forall_mem_cons] at valid
    have behind : EndsWord (fun _ => false) (listing steps ++ rest) := by
      cases steps with
      | nil => exact ends
      | cons next steps => exact endsWord_of_space _
    have cons : listing (found :: steps) ++ rest = ' ' :: (found.text ++ (listing steps ++ rest)) := by
      simp [listing]
    rw [cons, readFrom_append valid.1 behind, ih valid.2]
    cases readFrom body rest <;> rfl

/-! ## The text of clauses -/

theorem plain_valueText (valid : IsValue value) :
    ∀ c ∈ valueText value, c = ' ' ∨ isSeparator c = false ∧ c ≠ '"' := by
  cases value with
  | single value => exact fun c member => .inr (valid.1.plain c member)
  | list items =>
    have inner : ∀ c ∈ (spaced items).toList, c = ' ' ∨ isSeparator c = false ∧ c ≠ '"' :=
      forall_mem_spaced (.inl rfl) fun item member c inItem =>
        .inr ((valid item member).1.plain c inItem)
    intro c member
    simp only [valueText, List.mem_cons, List.mem_append, List.not_mem_nil, or_false] at member
    rcases member with rfl | inItems | rfl
    · exact .inr (by decide)
    · exact inner c inItems
    · exact .inr (by decide)

theorem plain_text (valid : found.Valid) : ∀ c ∈ found.text, c = ' ' ∨ isSeparator c = false ∧ c ≠ '"' := by
  cases found with
  | access words =>
    match words, valid with
    | [word], valid => exact fun c member => .inr ((valid word (by simp)).1.plain c member)
    | [], _ =>
      have items : IsValue (.list []) := by simp [IsValue]
      exact plain_valueText items
    | first :: second :: words, valid =>
      have items : IsValue (.list (first :: second :: words)) := fun word member =>
        (valid word member).isItem
      exact plain_valueText items
  | condition key value =>
    intro c member
    simp only [Step.text, List.mem_append, List.mem_cons] at member
    rcases member with inKey | rfl | inValue
    · exact .inr (valid.1.1.plain c inKey)
    · exact .inr (by decide)
    · exact plain_valueText valid.2 c inValue

theorem endsSolid_valueText (valid : IsValue value) : EndsSolid (valueText value) := by
  cases value with
  | single value => exact valid.1.solidWord.ends
  | list items => exact ⟨'(' :: (spaced items).toList, ')', by simp [valueText], by decide⟩

theorem endsSolid_text (valid : found.Valid) : EndsSolid found.text := by
  cases found with
  | access words =>
    match words, valid with
    | [word], valid => exact (valid word (by simp)).1.solidWord.ends
    | [], _ => exact ⟨['('], ')', rfl, by decide⟩
    | first :: second :: words, _ =>
      exact ⟨'(' :: (spaced (first :: second :: words)).toList, ')', by simp [Step.text], by decide⟩
  | condition key value => exact ((endsSolid_valueText valid.2).cons '=').append _

variable {steps : List Step}

theorem plain_listing (valid : ∀ found ∈ steps, found.Valid) :
    ∀ c ∈ listing steps, c = ' ' ∨ isSeparator c = false ∧ c ≠ '"' := by
  intro c member
  obtain ⟨found, among, inText⟩ := List.mem_flatMap.mp member
  rcases List.mem_cons.mp inText with rfl | inText
  · exact .inl rfl
  · exact plain_text (valid found among) c inText

theorem endsSolid_listing (valid : ∀ found ∈ steps, found.Valid) (nonempty : steps ≠ []) :
    EndsSolid (listing steps) := by
  induction steps with
  | nil => exact absurd rfl nonempty
  | cons found steps ih =>
    rw [List.forall_mem_cons] at valid
    cases steps with
    | nil => simpa [listing] using (endsSolid_text valid.1).cons ' '
    | cons next steps => exact (ih valid.2 (by simp)).append (' ' :: found.text)

theorem exists_plainBody (valid : ∀ found ∈ steps, found.Valid) :
    ∃ part, listing steps = spacedPart part ∧ PlainBody part := by
  cases steps with
  | nil => exact ⟨[], rfl, fun nonempty => absurd rfl nonempty, by simp⟩
  | cons found steps =>
    obtain ⟨c, tail, text, separates⟩ := exists_cons_text (valid found List.mem_cons_self)
    have shape : listing (found :: steps) = ' ' :: c :: (tail ++ listing steps) := by
      simp [listing, text]
    have chars := plain_listing valid
    have ends := endsSolid_listing valid (by simp)
    rw [shape] at chars ends
    refine ⟨c :: (tail ++ listing steps), shape, fun _ => ⟨⟨c, _, rfl, ?_⟩, ends.of_cons (by simp), ?_⟩, ?_⟩
    · rw [isSeparator, Bool.or_eq_false_iff] at separates
      exact isBlank_eq_false_iff.mp separates.1
    · intro newline
      rcases chars '\n' (List.mem_cons_of_mem _ newline) with space | ⟨apart, _⟩
      · cases space
      · cases apart
    · intro comma
      rcases chars ',' (List.mem_cons_of_mem _ comma) with space | ⟨apart, _⟩
      · cases space
      · cases apart

/-! ## Taking clauses out -/

theorem mem_stated {value : Option ClauseValue} {entry : String × ClauseValue} :
    entry ∈ stated key value ↔ entry.1 = key ∧ value = some entry.2 := by
  cases value with
  | none => simp [stated]
  | some found =>
    simp only [stated, Option.map_some, Option.toList_some, List.mem_singleton, Option.some.injEq]
    constructor
    · rintro rfl
      exact ⟨rfl, rfl⟩
    · rintro ⟨rfl, rfl⟩
      rfl

theorem take_front {access : List String} (value : Option ClauseValue)
    {others : List (String × ClauseValue)} (absent : ∀ entry ∈ others, entry.1 ≠ key) :
    take ⟨access, stated key value ++ others⟩ key = .ok (value, ⟨access, others⟩) := by
  have none : others.filter (fun entry => entry.1 == key) = [] := by
    rw [List.filter_eq_nil_iff]
    exact fun entry member => by simpa using absent entry member
  have all : others.filter (fun entry => entry.1 != key) = others := by
    rw [List.filter_eq_self]
    exact fun entry member => by simpa using absent entry member
  cases value with
  | none => simp [stated, take, none, all]
  | some found => simp [stated, take, none, all]

def patternValue (value : Extent Pattern) : Option ClauseValue :=
  value.value?.map fun pattern => .single pattern.glob

def MadeOfText (value : Extent Pattern) : Prop :=
  ∀ pattern, value = .only pattern → pattern.glob ≠ "" ∧ pattern.literal = none

theorem patternOf_eq_ok {value : Option ClauseValue} (success : patternOf key value = .ok pattern) :
    MadeOfText pattern ∧ value = patternValue pattern := by
  unfold patternOf at success
  split at success
  · cases success
    refine ⟨?_, rfl⟩
    rintro pattern ⟨⟩
  next text =>
    obtain ⟨made, ofText, rfl⟩ := map_eq_ok.mp success
    obtain ⟨nonempty, rfl⟩ := Pattern.ofText_false_eq_ok_iff.mp ofText
    refine ⟨?_, rfl⟩
    rintro pattern ⟨⟩
    exact ⟨nonempty, rfl⟩
  · cases success

theorem patternOf_patternValue (key : String) (made : MadeOfText pattern) :
    patternOf key (patternValue pattern) = .ok pattern := by
  cases pattern with
  | all => rfl
  | only pattern =>
    obtain ⟨nonempty, literal⟩ := made pattern rfl
    have ofText : Pattern.ofText pattern.glob false = .ok pattern :=
      Pattern.ofText_false_eq_ok_iff.mpr ⟨nonempty, by rw [← literal]⟩
    change (Pattern.ofText pattern.glob false).map Extent.only = _
    rw [ofText]
    rfl

theorem takePattern_perm {clauses others : Clauses}
    (success : clauses.takePattern key = .ok (pattern, others)) :
    MadeOfText pattern ∧
      clauses.conditions.Perm (stated key (patternValue pattern) ++ others.conditions) := by
  obtain ⟨⟨value, rest⟩, taken, success⟩ := bind_eq_ok.mp success
  obtain ⟨found, made, ⟨⟩⟩ := bind_eq_ok.mp success
  obtain ⟨isText, rfl⟩ := patternOf_eq_ok made
  exact ⟨isText, take_perm taken⟩

theorem takePattern_front {access : List String} (made : MadeOfText pattern)
    {others : List (String × ClauseValue)} (absent : ∀ entry ∈ others, entry.1 ≠ key) :
    takePattern ⟨access, stated key (patternValue pattern) ++ others⟩ key =
      .ok (pattern, ⟨access, others⟩) := by
  simp only [takePattern, take_front _ absent, patternOf_patternValue key made, bind, Except.bind]
  rfl

end Clauses

/-! ## Accesses -/

namespace Access

open Clauses

def words : Access → List String
  | .all => []
  | .only set => set.toList

/-- Some words, all of them allowed; or all accesses. -/
def IsFor (allowed : List String) (access : Access) : Prop :=
  ∀ set, access = .only set → set.toList ≠ [] ∧ ∀ word ∈ set.toList, word ∈ allowed

variable {kind : RuleKind} {allowed : List String} {access : Access}

theorem checkWords_eq_ok_iff {words : List String} :
    checkWords kind allowed words = .ok () ↔ ∀ word ∈ words, word ∈ allowed := by
  unfold checkWords
  split
  next word found =>
    refine ⟨fun impossible => (by cases impossible), fun all => ?_⟩
    have unknown := List.find?_some found
    simp [all word (List.mem_of_find?_eq_some found)] at unknown
  next none =>
    rw [List.find?_eq_none] at none
    simpa using none

theorem isFor_of_ofWords {words : List String} (success : ofWords kind allowed words = .ok access) :
    access.IsFor allowed := by
  unfold ofWords at success
  split at success
  · cases success
    exact fun _ impossible => by cases impossible
  next nonempty =>
    obtain ⟨_, checked, rfl⟩ := map_eq_ok.mp success
    rintro set same
    cases same
    simp only [SortedSet.mem_ofList]
    refine ⟨?_, checkWords_eq_ok_iff.mp checked⟩
    obtain ⟨word, member⟩ := List.exists_mem_of_ne_nil words (by simpa using nonempty)
    exact List.ne_nil_of_mem (SortedSet.mem_ofList.mpr member)

theorem ofWords_words (kind : RuleKind) (valid : access.IsFor allowed) :
    ofWords kind allowed access.words = .ok access := by
  cases access with
  | all => rfl
  | only set =>
    obtain ⟨nonempty, known⟩ := valid set rfl
    have checked : checkWords kind allowed set.toList = .ok () := checkWords_eq_ok_iff.mpr known
    simp only [ofWords, words, checked, SortedSet.ofList_toList]
    rw [if_neg (by simpa using nonempty)]
    rfl

theorem check_eq_ok (kind : RuleKind) (valid : access.IsFor allowed) :
    access.check kind allowed = .ok () := by
  cases access with
  | all => rfl
  | only set =>
    obtain ⟨nonempty, known⟩ := valid set rfl
    have some : set.isEmpty = false := by simpa [SortedSet.isEmpty] using nonempty
    simp only [check, some]
    exact checkWords_eq_ok_iff.mpr known

def steps : Access → List Step
  | .all => []
  | .only set => [.access set.toList]

theorem listText_toList (set : SortedSet String) : (listText set).toList = (Step.access set.toList).text := by
  unfold listText SortedSet.size
  match set.toList with
  | [] => rfl
  | [word] => simp [Step.text, toList_spaced]
  | first :: second :: words => simp [Step.text]

theorem text_toList (access : Access) : access.text.toList = listing access.steps := by
  cases access with
  | all => rfl
  | only set => simp [text, Extent.text, listing, steps, listText_toList]

theorem valid_steps (names : ∀ word ∈ allowed, IsName word) (valid : access.IsFor allowed) :
    ∀ found ∈ access.steps, found.Valid := by
  cases access with
  | all => simp [steps]
  | only set =>
    simp only [steps, List.mem_singleton, forall_eq]
    exact fun word member => names word ((valid set rfl).2 word member)

end Access

end ArmorPolicy
