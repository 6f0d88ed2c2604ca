import ArmorPolicy.Proofs.Text.Lines

/-!
# Words between separators

Words that are written with separators between them are read back one by one, and what is read as a
word holds no separator.
-/

namespace ArmorPolicy.Text

open List

variable {sign : Char} {s word : List Char} {p : Char → Bool}

theorem splitAt_cons_of_sign (found : p sign) (rest : List Char) :
    splitAt p (sign :: rest) = [] :: splitAt p rest := by
  simp [splitAt, found]

theorem fields_of_separators {separators : List Char} (all : ∀ c ∈ separators, p c)
    (rest : List Char) : fields p (separators ++ rest) = fields p rest := by
  induction separators with
  | nil => rfl
  | cons sign separators ih =>
    rw [forall_mem_cons] at all
    rw [← ih all.2]
    simp [fields, splitAt_cons_of_sign all.1]

theorem fields_of_word (nonempty : word ≠ []) (none : ∀ c ∈ word, p c = false) : fields p word = [word] := by
  simp [fields, splitAt_of_none none, nonempty]

theorem fields_word_append (nonempty : word ≠ []) (none : ∀ c ∈ word, p c = false)
    (found : p sign) (rest : List Char) : fields p (word ++ sign :: rest) = word :: fields p rest := by
  simp [fields, splitAt_append_cons none found, nonempty]

theorem fields_intercalate {separators : List Char} (found : p sign)
    (all : ∀ c ∈ separators, p c) {words : List (List Char)}
    (valid : ∀ word ∈ words, word ≠ [] ∧ ∀ c ∈ word, p c = false) :
    fields p ((sign :: separators).intercalate words) = words := by
  induction words with
  | nil => rfl
  | cons word others ih =>
    rw [forall_mem_cons] at valid
    obtain ⟨⟨nonempty, none⟩, rest⟩ := valid
    cases others with
    | nil => rw [intercalate_singleton, fields_of_word nonempty none]
    | cons second others =>
      rw [intercalate_cons_cons, append_assoc, cons_append,
        fields_word_append nonempty none found, fields_of_separators all, ih rest]

theorem mem_fields (member : word ∈ fields p s) : word ≠ [] ∧ ∀ c ∈ word, p c = false := by
  obtain ⟨piece, nonempty⟩ := mem_filter.mp member
  refine ⟨?_, (mem_splitAt piece).2⟩
  rintro rfl
  cases nonempty

theorem subset_of_mem_fields (member : word ∈ fields p s) : word ⊆ s :=
  (mem_splitAt (mem_filter.mp member).1).1

/-! ## Words with spaces between them -/

theorem forall_mem_intercalate {q : Char → Prop} {separator : List Char} {pieces : List (List Char)}
    (between : ∀ c ∈ separator, q c) (within : ∀ piece ∈ pieces, ∀ c ∈ piece, q c) :
    ∀ c ∈ separator.intercalate pieces, q c := by
  induction pieces with
  | nil => simp
  | cons piece others ih =>
    rw [forall_mem_cons] at within
    cases others with
    | nil => simpa using within.1
    | cons second others =>
      rw [intercalate_cons_cons]
      intro c member
      simp only [mem_append] at member
      rcases member with (here | separating) | further
      · exact within.1 c here
      · exact between c separating
      · exact ih within.2 c further

theorem toList_spaced (pieces : List String) :
    (spaced pieces).toList = [' '].intercalate (pieces.map String.toList) := by
  rw [spaced, String.toList_intercalate]
  rfl

theorem toList_spaced_cons (piece : String) (pieces : List String) :
    (spaced (piece :: pieces)).toList =
      piece.toList ++ if pieces = [] then [] else ' ' :: (spaced pieces).toList := by
  cases pieces with
  | nil => simp [toList_spaced]
  | cons next pieces => simp [toList_spaced, intercalate_cons_cons]

theorem forall_mem_spaced {q : Char → Prop} {pieces : List String} (space : q ' ')
    (within : ∀ piece ∈ pieces, ∀ c ∈ piece.toList, q c) : ∀ c ∈ (spaced pieces).toList, q c := by
  rw [toList_spaced]
  refine forall_mem_intercalate (by simpa using space) ?_
  intro piece member
  obtain ⟨text, among, rfl⟩ := mem_map.mp member
  exact within text among

structure SolidWord (word : String) : Prop where
  nonempty : word ≠ ""
  solid : ∀ c ∈ word.toList, isSolid c = true

namespace SolidWord

variable {word : String}

theorem ne_nil (valid : SolidWord word) : word.toList ≠ [] := by
  simpa using valid.nonempty

theorem starts (valid : SolidWord word) : StartsSolid word.toList := by
  obtain ⟨c, rest, text⟩ := exists_cons_of_ne_nil valid.ne_nil
  exact ⟨c, rest, text, valid.solid c (by simp [text])⟩

theorem ends (valid : SolidWord word) : EndsSolid word.toList := by
  rcases eq_nil_or_concat word.toList with empty | ⟨start, c, text⟩
  · exact absurd empty valid.ne_nil
  · rw [concat_eq_append] at text
    exact ⟨start, c, text, valid.solid c (by simp [text])⟩

theorem notMem (valid : SolidWord word) {c : Char} (blank : isBlank c) : c ∉ word.toList := by
  intro member
  have solid := valid.solid c member
  rw [isSolid, blank] at solid
  cases solid

theorem tidy (valid : SolidWord word) : Tidy word.toList :=
  ⟨valid.starts, valid.ends, valid.notMem (by decide)⟩

end SolidWord

theorem solidWord_of_mem_words (member : word ∈ words s) : SolidWord (String.ofList word) := by
  obtain ⟨nonempty, none⟩ := mem_fields member
  refine ⟨by simpa using nonempty, ?_⟩
  intro c inWord
  rw [String.toList_ofList] at inWord
  exact isBlank_eq_false_iff.mp (none c inWord)

section Spaced

variable {pieces : List String}

theorem tidy_spaced_of_tidy (nonempty : pieces ≠ []) (valid : ∀ piece ∈ pieces, Tidy piece.toList) :
    Tidy (spaced pieces).toList := by
  induction pieces with
  | nil => exact absurd rfl nonempty
  | cons piece pieces ih =>
    rw [forall_mem_cons] at valid
    obtain ⟨first, others⟩ := valid
    rw [toList_spaced_cons]
    split
    · rwa [append_nil]
    next some =>
      have rest := ih some others
      exact ⟨first.starts.append _, (rest.ends.cons ' ').append _, by simp [first.oneLine, rest.oneLine]⟩

theorem words_spaced (valid : ∀ piece ∈ pieces, SolidWord piece) :
    words (spaced pieces).toList = pieces.map String.toList := by
  rw [toList_spaced]
  refine fields_intercalate (by decide) (by simp) ?_
  intro word member
  obtain ⟨piece, among, rfl⟩ := mem_map.mp member
  exact ⟨(valid piece among).ne_nil,
    fun c inPiece => isBlank_eq_false_iff.mpr ((valid piece among).solid c inPiece)⟩

theorem wordsOf_spaced (valid : ∀ piece ∈ pieces, SolidWord piece) :
    (words (spaced pieces).toList).map String.ofList = pieces := by
  rw [words_spaced valid, map_map]
  simp [Function.comp_def]

theorem tidy_spaced (nonempty : pieces ≠ []) (valid : ∀ piece ∈ pieces, SolidWord piece) :
    Tidy (spaced pieces).toList :=
  tidy_spaced_of_tidy nonempty fun piece among => (valid piece among).tidy

theorem startsSolid_spaced (nonempty : pieces ≠ []) (valid : ∀ piece ∈ pieces, SolidWord piece) :
    StartsSolid (spaced pieces).toList :=
  (tidy_spaced nonempty valid).starts

end Spaced

end ArmorPolicy.Text
