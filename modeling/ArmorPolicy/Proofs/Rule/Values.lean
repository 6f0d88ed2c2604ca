import ArmorPolicy.Proofs.Data.Sorted
import ArmorPolicy.Proofs.Rule.Dispatch

/-!
# Values of assignments

The values of a line are taken off its text one after another, each from a token: the value between
quotation marks, or bare.  They are written in their order with single spaces, and between quotation
marks where they are empty or hold a space.  A comment sign ends the values wherever it stands, but for
the first character behind signs `@`.
-/

namespace ArmorPolicy.Assignment

open List Text Line

variable {c : Char} {rest s word : List Char} {values : SortedSet String}

/-! ## Values -/

/-- A value is read back from its text: it is empty or a space asks for quotation marks, or it is a
word without a comma at its end. -/
def LegibleValue (value : List Char) : Prop :=
  value = [] ∨ ' ' ∈ value ∨ (∀ c ∈ value, isSolid c = true) ∧ value.getLast? ≠ some ','

instance (value : List Char) : Decidable (LegibleValue value) := inferInstanceAs (Decidable (_ ∨ _ ∨ _ ∧ _))

inductive IsWord : List Char → Prop
  | quoted {inner : List Char} : '"' ∉ inner → IsWord ('"' :: inner ++ ['"'])
  | plain {word : List Char} : word ≠ [] → (∀ c ∈ word, isSolid c = true) → '"' ∉ word → IsWord word

theorem IsWord.ne_nil (isWord : IsWord word) : word ≠ [] := by
  cases isWord with
  | quoted => simp
  | plain nonempty => exact nonempty

theorem IsWord.tidy (isWord : IsWord word) (oneLine : '\n' ∉ word) : Tidy word := by
  cases isWord with
  | @quoted inner _ => exact ⟨⟨'"', _, rfl, by decide⟩, ⟨'"' :: inner, '"', rfl, by decide⟩, oneLine⟩
  | plain nonempty solid _ =>
    have valid : SolidWord (String.ofList word) := ⟨by simpa using nonempty, by simpa using solid⟩
    simpa using valid.tidy

theorem firstValue?_eq_some (found : firstValue? s = some (word, rest)) :
    ∃ behind, s = word ++ behind ∧ rest = trim behind ∧ IsWord word := by
  obtain ⟨⟨first, behind⟩, cut, found⟩ := Option.bind_eq_some_iff.mp found
  have rest : rest = trim behind ∧ word = first := by
    simp only at found
    split at found
    · cases found
    · cases found
      exact ⟨trim_trimStart behind, rfl⟩
  obtain ⟨rfl, rfl⟩ := rest
  split at cut
  · obtain ⟨inner, rfl, whole, noMark⟩ := quotation?_eq_some_iff.mp cut
    exact ⟨behind, by rw [whole]; simp, rfl, .quoted noMark⟩
  · split at cut
    · cases cut
    next nonempty =>
      cases cut
      have allowed := all_eq_true.mp (all_takeWhile (p := fun c => isSolid c && c != '"') (l := s))
      refine ⟨_, (prefix_iff_eq_append.mp ( takeWhile_prefix _)).symm, rfl, .plain nonempty ?_ ?_⟩
      · exact fun c member => (Bool.and_eq_true_iff.mp (allowed c member)).1
      · exact fun mark => absurd (allowed _ mark) (by decide)

theorem length_firstValue?_lt (found : firstValue? s = some (word, rest)) : rest.length < s.length := by
  obtain ⟨behind, rfl, rfl, isWord⟩ := firstValue?_eq_some found
  have shorter := (trim_sublist behind).length_le
  have some := length_pos_iff.mpr isWord.ne_nil
  rw [length_append]
  omega

theorem IsWord.firstValue?_append (isWord : IsWord word) (stops : ∀ c ∈ rest.head?, c = ' ')
    (oneLine : '\n' ∉ rest) : firstValue? (word ++ rest) = some (word, trim rest) := by
  have noBreak : (trimStart rest).contains '\n' = false := by
    simpa using fun newline => oneLine ((trimStart_sublist rest).subset newline)
  cases isWord with
  | @quoted inner noMark =>
    have quoted : quotation? ('"' :: (inner ++ '"' :: rest)) = some ('"' :: inner ++ ['"'], rest) :=
      quotation?_eq_some_iff.mpr ⟨inner, rfl, rfl, noMark⟩
    rw [append_assoc, cons_append, singleton_append]
    simp only [firstValue?, quoted, Option.bind_some, noBreak, trim_trimStart]
    rfl
  | plain nonempty solid noMark =>
    have allowed : ∀ c ∈ word, (isSolid c && c != '"') := by
      intro c member
      have unmarked : c ≠ '"' := by
        rintro rfl
        exact noMark member
      simp [solid c member, unmarked]
    have taken : (word ++ rest).takeWhile (fun c => isSolid c && c != '"') = word := by
      rw [takeWhile_append_of_pos allowed]
      cases rest with
      | nil => simp
      | cons d rest =>
        obtain rfl := stops d rfl
        have blank : isSolid ' ' = false := by decide
        simp [blank]
    have left : (word ++ rest).drop word.length = rest := drop_left
    obtain ⟨c, tail, rfl⟩ := exists_cons_of_ne_nil nonempty
    have first : c ≠ '"' := by
      rintro rfl
      exact noMark mem_cons_self
    rw [cons_append] at taken left ⊢
    unfold firstValue?
    split
    next same => exact absurd (List.cons.inj same).1 first
    · simp only [taken, left, Option.bind_some, noBreak, trim_trimStart]; rfl

theorem firstValue?_spaced {piece : String} {pieces : List String} (isWord : IsWord piece.toList)
    (tidy : ∀ other ∈ pieces, Tidy other.toList) :
    firstValue? (spaced (piece :: pieces)).toList = some (piece.toList, (spaced pieces).toList) := by
  rw [toList_spaced_cons]
  split
  next none =>
    rw [isWord.firstValue?_append (by simp) (by simp), none]
    rfl
  next some =>
    have others := tidy_spaced_of_tidy some tidy
    have space : ∀ c ∈ [' '], isBlank c := by decide
    rw [isWord.firstValue?_append (by simp) (by simp [others.oneLine])]
    exact congrArg (fun rest => Option.some (_, rest)) (others.trim_indented space)

inductive Separated : List Char → List (List Char) → Prop
  | nil : Separated [] []
  | cons {s word rest : List Char} {words : List (List Char)} :
      firstValue? s = some (word, rest) → word.getLast? ≠ some ',' → Separated rest words →
        Separated s (word :: words)

/-- The value of a text, without the quotation marks around it. -/
def valueOf (word : List Char) : String := String.ofList (stripQuotes word)

theorem separated_of_valuesFrom {bound : Nat} {before : SortedSet String}
    (success : valuesFrom bound s before = .ok values) :
    ∃ words, Separated s words ∧ values = (words.map valueOf).foldl SortedSet.insert before := by
  induction bound generalizing s before with
  | zero =>
    simp only [valuesFrom] at success
    split at success
    next empty =>
      cases success
      exact ⟨[], by rw [isEmpty_iff.mp empty]; exact .nil, rfl⟩
    · cases success
  | succ bound ih =>
    simp only [valuesFrom] at success
    split at success
    · split at success
      next empty =>
        cases success
        exact ⟨[], by rw [isEmpty_iff.mp empty]; exact .nil, rfl⟩
      · cases success
    next word rest found =>
      split at success
      · cases success
      next noComma =>
        obtain ⟨words, separated, rfl⟩ := ih success
        exact ⟨word :: words, .cons found noComma separated, rfl⟩

theorem separated_of_separate (success : separate s = .ok values) :
    ∃ words, Separated (trim s) words ∧ values = SortedSet.ofList (words.map valueOf) :=
  separated_of_valuesFrom success

namespace Separated

variable {words : List (List Char)}

theorem length_le (separated : Separated s words) : words.length ≤ s.length := by
  induction separated with
  | nil => exact Nat.le_refl 0
  | cons found _ _ ih =>
    have shorter := length_firstValue?_lt found
    rw [length_cons]
    omega

theorem forall_of_step {I : List Char → Prop} {P : String → Prop} (separated : Separated s words)
    (step : ∀ s word rest, I s → firstValue? s = some (word, rest) → word.getLast? ≠ some ',' →
      I rest ∧ P (valueOf word)) (inv : I s) : ∀ value ∈ words.map valueOf, P value := by
  induction separated with
  | nil => simp
  | cons found noComma _ ih =>
    obtain ⟨kept, first⟩ := step _ _ _ inv found noComma
    rw [map_cons, forall_mem_cons]
    exact ⟨first, ih kept⟩

end Separated

theorem trim_of_blank (blank : ∀ c ∈ s, isBlank c) : trim s = [] := by
  have none := trimStart_append_of_blank blank []
  rw [append_nil] at none
  rw [trim, none]
  rfl

theorem eq_nil_of_separate (blank : ∀ c ∈ s, isBlank c) (success : separate s = .ok values) :
    values.toList = [] := by
  obtain ⟨words, separated, rfl⟩ := separated_of_separate success
  have few := separated.length_le
  rw [trim_of_blank blank] at few
  rw [length_eq_zero_iff.mp (Nat.le_zero.mp few)]
  rfl

theorem forall_of_separate {I : List Char → Prop} {P : String → Prop}
    (step : ∀ s word rest, I s → firstValue? s = some (word, rest) → word.getLast? ≠ some ',' →
      I rest ∧ P (valueOf word)) (inv : I (trim s)) (success : separate s = .ok values) :
    ∀ value ∈ values.toList, P value := by
  obtain ⟨words, separated, rfl⟩ := separated_of_separate success
  exact fun value member => separated.forall_of_step step inv value (SortedSet.mem_ofList.mp member)

theorem toList_valueOf (found : firstValue? s = some (word, rest)) :
    '"' ∉ (valueOf word).toList ∧ ((valueOf word).toList ++ rest).Sublist s := by
  rw [valueOf, String.toList_ofList]
  obtain ⟨behind, rfl, rfl, isWord⟩ := firstValue?_eq_some found
  cases isWord with
  | @quoted inner noMark =>
    rw [stripQuotes_quoted]
    refine ⟨noMark, ?_⟩
    rw [append_assoc, cons_append]
    refine ((trim_sublist behind).append_left inner).trans ?_
    exact ((sublist_cons_self _ _).append_left inner).trans (sublist_cons_self _ _)
  | plain _ _ noMark =>
    rw [stripQuotes_of_noMark noMark]
    exact ⟨noMark, (trim_sublist behind).append_left word⟩

theorem subset_of_separate (success : separate s = .ok values) :
    ∀ value ∈ values.toList, '"' ∉ value.toList ∧ value.toList ⊆ s := by
  refine forall_of_separate (I := (· ⊆ s)) ?_ (trim_sublist s).subset success
  intro t word rest within found _
  obtain ⟨noMark, sublist⟩ := toList_valueOf found
  refine ⟨fun c member => within (sublist.subset ?_), noMark, fun c member => within (sublist.subset ?_)⟩
  · exact mem_append_right _ member
  · exact mem_append_left _ member

/-! ## Tokens -/

/-- A value as it may stand in a text: any line without marks between quotation marks, or a bare word. -/
inductive Token where
  | quoted (value : String) (noMark : '"' ∉ value.toList) (oneLine : '\n' ∉ value.toList)
  | bare (word : String) (solid : SolidWord word) (noMark : '"' ∉ word.toList)

namespace Token

def text : Token → String
  | quoted value _ _ => "\"" ++ value ++ "\""
  | bare word _ _ => word

def value : Token → String
  | quoted value _ _ => value
  | bare word _ _ => word

def EndsInComma : Token → Prop
  | quoted _ _ _ => False
  | bare word _ _ => word.toList.getLast? = some ','

instance : DecidablePred EndsInComma
  | quoted _ _ _ => inferInstanceAs (Decidable False)
  | bare word _ _ => inferInstanceAs (Decidable (word.toList.getLast? = some ','))

theorem toList_text_quoted {value : String} (noMark : '"' ∉ value.toList) (oneLine : '\n' ∉ value.toList) :
    (quoted value noMark oneLine).text.toList = '"' :: value.toList ++ ['"'] := by
  simp [text]

theorem isWord (token : Token) : IsWord token.text.toList := by
  cases token with
  | quoted value noMark oneLine =>
    rw [toList_text_quoted]
    exact .quoted noMark
  | bare word solid noMark => exact .plain solid.ne_nil solid.solid noMark

theorem oneLine (token : Token) : '\n' ∉ token.text.toList := by
  cases token with
  | quoted value noMark oneLine =>
    rw [toList_text_quoted]
    simp [oneLine]
  | bare word solid noMark => exact solid.notMem (by decide)

theorem tidy (token : Token) : Tidy token.text.toList := token.isWord.tidy token.oneLine

theorem valueOf_text (token : Token) : valueOf token.text.toList = token.value := by
  cases token with
  | quoted value noMark oneLine =>
    rw [toList_text_quoted, valueOf, stripQuotes_quoted, String.ofList_toList, Token.value]
  | bare word solid noMark =>
    rw [text, valueOf, stripQuotes_of_noMark noMark, String.ofList_toList, Token.value]

theorem getLast?_text_iff (token : Token) : token.text.toList.getLast? = some ',' ↔ token.EndsInComma := by
  cases token with
  | quoted value noMark oneLine =>
    rw [toList_text_quoted, getLast?_concat]
    simp [EndsInComma]
  | bare word solid noMark => exact Iff.rfl

end Token

/-- Tokens with single spaces between them. -/
def joined (tokens : List Token) : List Char := (spaced (tokens.map Token.text)).toList

variable {tokens : List Token}

theorem tidy_of_mem_texts {piece : String} (among : piece ∈ tokens.map Token.text) : Tidy piece.toList := by
  obtain ⟨token, _, rfl⟩ := mem_map.mp among
  exact token.tidy

theorem tidy_joined (nonempty : tokens ≠ []) : Tidy (joined tokens) :=
  tidy_spaced_of_tidy (by simpa using nonempty) fun _ => tidy_of_mem_texts

theorem trim_joined {blanks : List Char} (tokens : List Token) (blank : ∀ c ∈ blanks, isBlank c) :
    trim (joined tokens ++ blanks) = joined tokens := by
  cases tokens with
  | nil => exact trim_of_blank blank
  | cons token tokens =>
    have tidy := tidy_joined (cons_ne_nil token tokens)
    rw [trim, trimStart_of_startsSolid (tidy.starts.append blanks), trimEnd_append_of_blanks blank,
      trimEnd_of_endsSolid tidy.ends]

theorem firstValue?_joined (token : Token) (tokens : List Token) :
    firstValue? (joined (token :: tokens)) = some (token.text.toList, joined tokens) :=
  firstValue?_spaced token.isWord fun _ => tidy_of_mem_texts

theorem valuesFrom_joined {bound : Nat} (enough : (joined tokens).length ≤ bound) (values : SortedSet String) :
    valuesFrom bound (joined tokens) values =
      if ∃ token ∈ tokens, token.EndsInComma then refuse .assignmentTrailingComma
      else .ok ((tokens.map Token.value).foldl SortedSet.insert values) := by
  induction tokens generalizing bound values with
  | nil => cases bound <;> rfl
  | cons token tokens ih =>
    have found := firstValue?_joined token tokens
    have shorter := length_firstValue?_lt found
    obtain ⟨bound, rfl⟩ : ∃ further, bound = further + 1 := ⟨bound - 1, by omega⟩
    rw [valuesFrom, found]
    by_cases comma : token.EndsInComma
    · have some : ∃ other ∈ token :: tokens, other.EndsInComma := ⟨token, mem_cons_self, comma⟩
      simp only [if_pos some, if_pos (token.getLast?_text_iff.mpr comma)]
    · have others : (∃ other ∈ token :: tokens, other.EndsInComma) ↔ ∃ other ∈ tokens, other.EndsInComma := by
        simp [comma]
      simp only [others, if_neg (mt token.getLast?_text_iff.mp comma)]
      rw [ih (by omega), map_cons, foldl_cons, ← token.valueOf_text, valueOf]

theorem separate_joined {blanks : List Char} (tokens : List Token) (blank : ∀ c ∈ blanks, isBlank c) :
    separate (joined tokens ++ blanks) =
      if ∃ token ∈ tokens, token.EndsInComma then refuse .assignmentTrailingComma
      else .ok (SortedSet.ofList (tokens.map Token.value)) := by
  rw [separate, trim_joined tokens blank]
  exact valuesFrom_joined (by simp) _

theorem getLast?_joined (noComma : ∀ token ∈ tokens, ¬token.EndsInComma) :
    (joined tokens).getLast? ≠ some ',' := by
  induction tokens with
  | nil => decide
  | cons token tokens ih =>
    rw [forall_mem_cons] at noComma
    rw [joined, map_cons, toList_spaced_cons]
    split
    · rw [append_nil]
      exact mt token.getLast?_text_iff.mp noComma.1
    next some =>
      obtain ⟨start, last, shape, _⟩ := (tidy_spaced_of_tidy some fun _ => tidy_of_mem_texts).ends
      have others := ih noComma.2
      rw [joined, shape, getLast?_concat] at others
      rw [shape, ← cons_append, ← append_assoc, getLast?_concat]
      exact others

/-! ## The texts of values -/

/-- A value can be read back from its text, and without end of line in it. -/
structure Readable (value : String) : Prop where
  noMark : '"' ∉ value.toList
  oneLine : '\n' ∉ value.toList
  legible : LegibleValue value.toList

theorem toList_valueText (value : String) :
    (valueText value).toList = '"' :: value.toList ++ ['"'] ∧ (value.toList = [] ∨ ' ' ∈ value.toList) ∨
      (valueText value).toList = value.toList ∧ value.toList ≠ [] ∧ ' ' ∉ value.toList := by
  unfold valueText
  by_cases empty : value = ""
  · subst empty
    exact .inl ⟨rfl, .inl rfl⟩
  · rw [if_neg (by simpa using empty)]
    have nonempty : value.toList ≠ [] := mt String.toList_eq_nil_iff.mp empty
    by_cases space : ' ' ∈ value.toList
    · exact .inl ⟨toList_quoteIfNeeded_of_space space, .inr space⟩
    · exact .inr ⟨by rw [quoteIfNeeded_of_noSpace space], nonempty, space⟩

theorem mem_valueText {value : String} (member : c ∈ (valueText value).toList) :
    c = '"' ∨ c ∈ value.toList := by
  rcases toList_valueText value with ⟨text, _⟩ | ⟨text, _⟩
  · rw [text] at member
    simpa [or_comm, or_assoc] using member
  · rw [text] at member
    exact .inr member

theorem Readable.exists_token {value : String} (readable : Readable value) :
    ∃ token : Token, token.text = valueText value ∧ token.value = value ∧ ¬token.EndsInComma := by
  obtain ⟨noMark, oneLine, legible⟩ := readable
  rcases toList_valueText value with ⟨text, _⟩ | ⟨text, nonempty, noSpace⟩
  · refine ⟨.quoted value noMark oneLine, String.toList_injective ?_, rfl, id⟩
    rw [Token.toList_text_quoted, text]
  · obtain ⟨solid, noComma⟩ := (legible.resolve_left nonempty).resolve_left noSpace
    exact ⟨.bare value ⟨mt String.toList_eq_nil_iff.mpr nonempty, solid⟩ noMark,
      (String.toList_injective text).symm, rfl, noComma⟩

def valuesText (values : List String) : List Char := (spaced (values.map valueText)).toList

theorem valuesText_cons (value : String) (values : List String) :
    valuesText (value :: values) =
      (valueText value).toList ++ if values = [] then [] else ' ' :: valuesText values := by
  simp [valuesText, toList_spaced_cons]

theorem mem_valuesText {values : List String} (member : c ∈ valuesText values) :
    c = ' ' ∨ c = '"' ∨ ∃ value ∈ values, c ∈ value.toList := by
  have all : ∀ c ∈ valuesText values, c = ' ' ∨ c = '"' ∨ ∃ value ∈ values, c ∈ value.toList := by
    refine forall_mem_spaced (.inl rfl) fun text among c inText => .inr ?_
    obtain ⟨value, inValues, rfl⟩ := mem_map.mp among
    exact (mem_valueText inText).imp_right fun inValue => ⟨value, inValues, inValue⟩
  exact all c member

section Texts

variable {values : List String} (readable : ∀ value ∈ values, Readable value)
include readable

theorem exists_tokens :
    ∃ tokens : List Token, joined tokens = valuesText values ∧ tokens.map Token.value = values ∧
      ∀ token ∈ tokens, ¬token.EndsInComma := by
  have each : ∃ tokens : List Token, tokens.map Token.text = values.map valueText ∧
      tokens.map Token.value = values ∧ ∀ token ∈ tokens, ¬token.EndsInComma := by
    induction values with
    | nil => exact ⟨[], rfl, rfl, by simp⟩
    | cons value values ih =>
      rw [forall_mem_cons] at readable
      obtain ⟨token, text, same, noComma⟩ := readable.1.exists_token
      obtain ⟨tokens, texts, others, noCommas⟩ := ih readable.2
      exact ⟨token :: tokens, by simp [text, texts], by simp [same, others],
        forall_mem_cons.mpr ⟨noComma, noCommas⟩⟩
  obtain ⟨tokens, texts, others⟩ := each
  exact ⟨tokens, by rw [joined, texts, valuesText], others⟩

theorem tidy_valuesText (nonempty : values ≠ []) : Tidy (valuesText values) := by
  obtain ⟨tokens, text, rfl, _⟩ := exists_tokens readable
  exact text ▸ tidy_joined (by simpa using nonempty)

theorem getLast?_valuesText : (valuesText values).getLast? ≠ some ',' := by
  obtain ⟨tokens, text, _, noComma⟩ := exists_tokens readable
  exact text ▸ getLast?_joined noComma

theorem separate_valuesText {blanks : List Char} (blank : ∀ c ∈ blanks, isBlank c) :
    separate (valuesText values ++ blanks) = .ok (SortedSet.ofList values) := by
  obtain ⟨tokens, text, same, noComma⟩ := exists_tokens readable
  rw [← text, separate_joined tokens blank, if_neg (by simpa using noComma), same]

end Texts

/-! ## The end of the values -/

theorem signedValues?_isSome (nonempty : s ≠ []) (oneLine : '\n' ∉ s) :
    (longest? (· == '@') (shortestPart? notNewline looseEnding?) s).isSome := by
  obtain ⟨c, rest, rfl⟩ := exists_cons_of_ne_nil nonempty
  have allowed := forall_mem_cons.mp (forall_notNewline_iff.mpr oneLine)
  refine longest?_isSome ?_
  have found : (shortest? notNewline looseEnding? (rest ++ [])).isSome := shortest?_isSome allowed.2 rfl
  rw [append_nil] at found
  simpa [shortestPart?, allowed.1, behind] using found

/-- No comment sign ends the line: none stands behind the first character other than `@`. -/
def Unsigned (s : List Char) : Prop := '#' ∉ (s.dropWhile (· == '@')).drop 1

instance (s : List Char) : Decidable (Unsigned s) := inferInstanceAs (Decidable ¬_)

theorem unsigned_of_signs (isSign : ∀ c ∈ s, (c == '@')) : Unsigned s := by
  have none : s.dropWhile (· == '@') = [] := by
    rw [← append_nil s, dropWhile_append_of_pos isSign]
    rfl
  simp [Unsigned, none]

section Endings

variable {comment : String}

theorem looseEnding?_of_noSign (ends : EndsSolid s) (noComma : s.getLast? ≠ some ',') (noSign : '#' ∉ s) :
    looseEnding? (s ++ comment.toList) = none := by
  rw [looseEnding?_eq, ending?_of_noSign ends noSign, Option.or_none]
  obtain ⟨blanks, c, rest, rfl, blank, solid⟩ := exists_solid ends
  rw [append_assoc, commaEnding?_blanks blank, cons_append]
  by_cases comma : c = ','
  · subst comma
    have more : rest ≠ [] := by
      rintro rfl
      exact noComma getLast?_concat
    rw [commaEnding?_comma]
    exact ending?_of_noSign (ends.of_suffix ⟨blanks ++ [','], by simp⟩ more)
      (fun sign => noSign (by simp [sign])) _
  · exact commaEnding?_of_solid solid comma _

theorem getLast?_of_suffix {suffix : List Char} (isSuffix : suffix <:+ s)
    (last : s.getLast? ≠ some c) : suffix.getLast? ≠ some c := by
  obtain ⟨start, rfl⟩ := isSuffix
  intro same
  refine last ?_
  rw [getLast?_append, same]
  rfl

theorem shortestPart?_values (tidy : Tidy s) (noComma : s.getLast? ≠ some ',')
    (valid : TrailingComment comment) {part : List Char} (isSuffix : c :: part <:+ s)
    (noSign : '#' ∉ part) :
    shortestPart? notNewline looseEnding? (c :: part ++ comment.toList) = some (c :: part, comment) := by
  have allowed := forall_mem_cons.mp
    (forall_notNewline_iff.mpr fun newline => tidy.oneLine (isSuffix.subset newline))
  refine shortestPart?_eq_some_iff.mpr ⟨c, part ++ comment.toList, part, rfl, rfl, allowed.1, ?_⟩
  refine shortest?_append allowed.2 ?_ (looseEnding?_of_trailingComment valid)
  intro start suffix split some
  have inner : suffix <:+ s := List.IsSuffix.trans ⟨c :: start, by rw [split]; rfl⟩ isSuffix
  refine looseEnding?_of_noSign (tidy.ends.of_suffix inner some) (getLast?_of_suffix inner noComma) ?_
  exact fun sign => noSign (by rw [split]; exact mem_append_right _ sign)

theorem values?_blanks {blanks : List Char} (blank : ∀ c ∈ blanks, isBlank c) (starts : StartsSolid s)
    (oneLine : '\n' ∉ s) :
    values? (blanks ++ s) = (longest? (· == '@') (shortestPart? notNewline looseEnding?) s).map
      fun (signs, values, comment) => (signs ++ values, comment) := by
  obtain ⟨c, rest, rfl, solid⟩ := starts
  have stops : ∀ d ∈ (c :: rest).head?, isBlank d = false := by
    rintro _ ⟨⟩
    exact isBlank_eq_false_iff.mpr solid
  obtain ⟨found, inner⟩ := Option.isSome_iff_exists.mp (signedValues?_isSome (cons_ne_nil c rest) oneLine)
  have outer := longest?_append_stop blank stops inner
  simp only [values?, outer, inner, Option.map_some]

theorem exists_signs (s : List Char) :
    (∀ c ∈ s, (c == '@')) ∨
      ∃ signs c rest, s = signs ++ c :: rest ∧ (∀ d ∈ signs, (d == '@')) ∧ (c == '@') = false ∧
        s.dropWhile (· == '@') = c :: rest := by
  have whole : s.takeWhile (· == '@') ++ s.dropWhile (· == '@') = s := takeWhile_append_dropWhile
  have isSign : ∀ c ∈ s.takeWhile (· == '@'), (c == '@') := fun c member =>
    all_eq_true.mp all_takeWhile c member
  cases behind : s.dropWhile (· == '@') with
  | nil =>
    rw [behind, append_nil] at whole
    rw [whole] at isSign
    exact .inl isSign
  | cons c rest =>
    have other := head?_dropWhile_not (· == '@') s
    rw [behind] at other whole
    exact .inr ⟨_, c, rest, whole.symm, isSign, by simpa using other, rfl⟩

theorem values?_append {before : List Char} (blankBefore : ∀ c ∈ before, isBlank c) (tidy : Tidy s)
    (noComma : s.getLast? ≠ some ',') (unsigned : Unsigned s) (valid : TrailingComment comment) :
    ∃ blanks, (∀ c ∈ blanks, isBlank c) ∧
      values? (before ++ (s ++ comment.toList)) = some (s ++ blanks, comment) := by
  have outer : ∀ signs values, longest? (· == '@') (shortestPart? notNewline looseEnding?)
      (s ++ comment.toList) = some (signs, values, comment) →
      values? (before ++ (s ++ comment.toList)) = some (signs ++ values, comment) := by
    intro signs values inner
    have found := values?_blanks blankBefore (tidy.starts.append comment.toList)
      (by simp [tidy.oneLine, valid.oneLine])
    rw [inner] at found
    exact found
  rcases exists_signs s with signs | ⟨signs, c, rest, rfl, isSign, other, behind⟩
  · rcases valid with rfl | ⟨rest, text, ends, oneLine⟩
    · obtain ⟨start, last, rfl, _⟩ := tidy.ends
      have lastSign : last = '@' := by simpa using signs last (by simp)
      subst lastSign
      have inner : longest? (· == '@') (shortestPart? notNewline looseEnding?)
          (start ++ ['@']) = some (start, ['@'], "") := by
        refine longest?_append (fun c member => signs c (by simp [member])) ?_ rfl
        intro first suffix split nonempty _
        obtain ⟨d, first, rfl⟩ := exists_cons_of_ne_nil nonempty
        have none : suffix = [] := (append_eq_nil_iff.mp (List.cons.inj split).2.symm).2
        rw [none]
        rfl
      refine ⟨[], by simp, ?_⟩
      have found := outer start ['@'] (by simpa using inner)
      simpa using found
    · have valid : TrailingComment comment := .inr ⟨rest, text, ends, oneLine⟩
      have ending : looseEnding? ('#' :: rest) = some comment := by
        have found := looseEnding?_of_trailingComment valid
        simpa [looseEnding?, text, trimStart_space] using found
      have part : shortestPart? notNewline looseEnding? comment.toList = some ([' '], comment) := by
        refine shortestPart?_eq_some_iff.mpr ⟨' ', '#' :: rest, [], text, rfl, by decide, ?_⟩
        simp [shortest?, ending]
      refine ⟨[' '], by decide, outer s [' '] ?_⟩
      refine longest?_append_stop signs ?_ part
      rw [text]
      rintro _ ⟨⟩
      decide
  · have part := shortestPart?_values tidy noComma valid (suffix_append signs _)
      (by simpa [Unsigned, behind] using unsigned)
    have stops : ∀ d ∈ (c :: rest ++ comment.toList).head?, (d == '@') = false := by
      rintro _ ⟨⟩
      exact other
    refine ⟨[], by simp, ?_⟩
    rw [append_nil]
    refine outer signs (c :: rest) ?_
    rw [append_assoc]
    exact longest?_append_stop isSign stops part

end Endings

end ArmorPolicy.Assignment
