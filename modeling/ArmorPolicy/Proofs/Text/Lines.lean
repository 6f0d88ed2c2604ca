import ArmorPolicy.Text.Basic

/-!
# Trimmed lines and their text

A tidy line starts and ends with a character that is not blank and lies on one line.  Joining lines
by newlines and cutting the text into lines again gives the same content, where indentation and
empty lines do not count.
-/

namespace ArmorPolicy.Text

open List

variable {c : Char} {p : Char → Bool} {blanks line s : List Char} {text : String}

/-! ## Trimming -/

theorem takeWhile_append_of_stop {part rest : List Char} {stop : Char}
    (all : ∀ c ∈ part, p c) (stops : p stop = false) : (part ++ stop :: rest).takeWhile p = part := by
  rw [takeWhile_append_of_pos all]
  simp [stops]

theorem dropWhile_append_of_stop {part rest : List Char} {stop : Char}
    (all : ∀ c ∈ part, p c) (stops : p stop = false) :
    (part ++ stop :: rest).dropWhile p = stop :: rest := by
  rw [dropWhile_append_of_pos all]
  simp [stops]

theorem isBlank_eq_false_iff : isBlank c = false ↔ isSolid c := by
  simp [isSolid]

theorem trimStart_cons_of_blank (blank : isBlank c) (s : List Char) : trimStart (c :: s) = trimStart s := by
  simp [trimStart, blank]

theorem trimStart_space (s : List Char) : trimStart (' ' :: s) = trimStart s :=
  trimStart_cons_of_blank (by decide) s

theorem trimStart_cons_of_solid (solid : isSolid c) (s : List Char) : trimStart (c :: s) = c :: s := by
  simp [trimStart, isBlank_eq_false_iff.mpr solid]

theorem trimStart_append_of_blank (blank : ∀ c ∈ blanks, isBlank c) (s : List Char) :
    trimStart (blanks ++ s) = trimStart s := by
  induction blanks with
  | nil => rfl
  | cons c blanks ih =>
    rw [forall_mem_cons] at blank
    rw [cons_append, trimStart_cons_of_blank blank.1, ih blank.2]

theorem trimEnd_append_of_solid (solid : isSolid c) (s : List Char) : trimEnd (s ++ [c]) = s ++ [c] := by
  simp [trimEnd, isBlank_eq_false_iff.mpr solid]

theorem trimEnd_append_of_blank (blank : isBlank c) (s : List Char) : trimEnd (s ++ [c]) = trimEnd s := by
  simp [trimEnd, blank]

theorem trimEnd_append_of_blanks (blank : ∀ c ∈ blanks, isBlank c) (s : List Char) :
    trimEnd (s ++ blanks) = trimEnd s := by
  have all : ∀ c ∈ blanks.reverse, isBlank c := fun c member => blank c (mem_reverse.mp member)
  rw [trimEnd, reverse_append, dropWhile_append_of_pos all, ← trimEnd]

theorem trimEnd_cons_of_solid (solid : isSolid c) (s : List Char) : trimEnd (c :: s) = c :: trimEnd s := by
  unfold trimEnd
  rw [reverse_cons, dropWhile_append]
  split
  next empty => simp [isEmpty_iff.mp empty, isBlank_eq_false_iff.mpr solid]
  · simp

theorem trimStart_sublist (s : List Char) : (trimStart s).Sublist s := dropWhile_sublist _

theorem trimEnd_sublist (s : List Char) : (trimEnd s).Sublist s := by
  have inner : (s.reverse.dropWhile isBlank).Sublist s.reverse := dropWhile_sublist _
  simpa [trimEnd] using inner.reverse

theorem trim_sublist (s : List Char) : (trim s).Sublist s := (trimEnd_sublist _).trans (trimStart_sublist s)

/-! ## Tidy lines -/

def StartsSolid (s : List Char) : Prop := ∃ c rest, s = c :: rest ∧ isSolid c = true

def EndsSolid (s : List Char) : Prop := ∃ start c, s = start ++ [c] ∧ isSolid c = true

/-- A line without blanks at its ends, and with something on it. -/
structure Tidy (s : List Char) : Prop where
  starts : StartsSolid s
  ends : EndsSolid s
  oneLine : '\n' ∉ s

instance (s : List Char) : Decidable (StartsSolid s) := by
  refine decidable_of_iff (s.head?.any isSolid = true) ?_
  cases s <;> simp [StartsSolid]

instance (s : List Char) : Decidable (EndsSolid s) := by
  refine decidable_of_iff (s.getLast?.any isSolid = true) ?_
  rcases List.eq_nil_or_concat s with rfl | ⟨start, c, rfl⟩ <;> simp [EndsSolid, and_assoc]

instance (s : List Char) : Decidable (Tidy s) :=
  decidable_of_iff (StartsSolid s ∧ EndsSolid s ∧ '\n' ∉ s)
    ⟨fun ⟨starts, ends, oneLine⟩ => ⟨starts, ends, oneLine⟩, fun tidy => ⟨tidy.starts, tidy.ends, tidy.oneLine⟩⟩

theorem trimStart_of_startsSolid (starts : StartsSolid s) : trimStart s = s := by
  obtain ⟨c, rest, rfl, solid⟩ := starts
  exact trimStart_cons_of_solid solid rest

theorem trimEnd_of_endsSolid (ends : EndsSolid s) : trimEnd s = s := by
  obtain ⟨start, c, rfl, solid⟩ := ends
  exact trimEnd_append_of_solid solid start

theorem StartsSolid.append (starts : StartsSolid s) (t : List Char) : StartsSolid (s ++ t) := by
  obtain ⟨c, rest, rfl, solid⟩ := starts
  exact ⟨c, rest ++ t, rfl, solid⟩

theorem EndsSolid.append {t : List Char} (ends : EndsSolid t) (s : List Char) : EndsSolid (s ++ t) := by
  obtain ⟨start, c, rfl, solid⟩ := ends
  exact ⟨s ++ start, c, by simp, solid⟩

theorem EndsSolid.cons (ends : EndsSolid s) (c : Char) : EndsSolid (c :: s) := ends.append [c]

theorem EndsSolid.of_append {start suffix : List Char} (ends : EndsSolid (start ++ suffix))
    (nonempty : suffix ≠ []) : EndsSolid suffix := by
  obtain ⟨before, c, text, solid⟩ := ends
  rcases eq_nil_or_concat suffix with empty | ⟨inner, last, rfl⟩
  · exact absurd empty nonempty
  · rw [concat_eq_append, ← append_assoc] at text
    obtain ⟨_, same⟩ := append_inj' text rfl
    exact ⟨inner, c, by rw [concat_eq_append, same], solid⟩

theorem EndsSolid.of_suffix {suffix : List Char} (ends : EndsSolid s) (isSuffix : suffix <:+ s)
    (nonempty : suffix ≠ []) : EndsSolid suffix := by
  obtain ⟨start, rfl⟩ := isSuffix
  exact ends.of_append nonempty

theorem EndsSolid.of_cons (ends : EndsSolid (c :: s)) (nonempty : s ≠ []) : EndsSolid s :=
  ends.of_suffix (suffix_cons c s) nonempty

theorem EndsSolid.ne_nil (ends : EndsSolid s) : s ≠ [] := by
  obtain ⟨start, c, rfl, _⟩ := ends
  simp

theorem not_endsSolid_of_blank (blank : isBlank c) (s : List Char) : ¬EndsSolid (s ++ [c]) := by
  rintro ⟨start, last, same, solid⟩
  obtain ⟨_, last_eq⟩ := append_inj' same rfl
  rw [← (List.cons.inj last_eq).1, isSolid, blank] at solid
  cases solid

theorem exists_blanks (s : List Char) : ∃ blanks, s = blanks ++ trimStart s ∧ ∀ c ∈ blanks, isBlank c :=
  ⟨s.takeWhile isBlank, (takeWhile_append_dropWhile).symm,
    fun c member => all_eq_true.mp all_takeWhile c member⟩

theorem mem_trimStart_of_solid (member : c ∈ s) (solid : isSolid c) : c ∈ trimStart s := by
  obtain ⟨blanks, split, blank⟩ := exists_blanks s
  rw [split] at member
  refine (mem_append.mp member).resolve_left fun inside => ?_
  rw [isSolid, blank c inside] at solid
  cases solid

theorem exists_blanks_behind (s : List Char) :
    ∃ blanks, s = trimEnd s ++ blanks ∧ ∀ c ∈ blanks, isBlank c := by
  refine ⟨(s.reverse.takeWhile isBlank).reverse, ?_, fun c member => ?_⟩
  · rw [trimEnd, ← reverse_append, takeWhile_append_dropWhile, reverse_reverse]
  · exact all_eq_true.mp all_takeWhile c (mem_reverse.mp member)

namespace Tidy

theorem ne_nil (tidy : Tidy s) : s ≠ [] := by
  obtain ⟨c, rest, rfl, _⟩ := tidy.starts
  simp

theorem trimStart_eq (tidy : Tidy s) : trimStart s = s := trimStart_of_startsSolid tidy.starts

theorem trim_eq (tidy : Tidy s) : trim s = s := by
  rw [trim, tidy.trimStart_eq, trimEnd_of_endsSolid tidy.ends]

theorem trim_indented (tidy : Tidy s) (blank : ∀ c ∈ blanks, isBlank c) : trim (blanks ++ s) = s := by
  rw [trim, trimStart_append_of_blank blank, tidy.trimStart_eq, trimEnd_of_endsSolid tidy.ends]

end Tidy

theorem endsSolid_trimEnd (nonempty : trimEnd s ≠ []) : EndsSolid (trimEnd s) := by
  induction length : s.length generalizing s with
  | zero =>
    obtain rfl := eq_nil_of_length_eq_zero length
    exact absurd rfl nonempty
  | succ n ih =>
    rcases eq_nil_or_concat s with rfl | ⟨start, c, rfl⟩
    · cases length
    · rw [concat_eq_append] at nonempty length ⊢
      by_cases blank : isBlank c
      · rw [trimEnd_append_of_blank blank] at nonempty ⊢
        exact ih nonempty (by simpa using length)
      · have solid : isSolid c := by simpa [isSolid] using blank
        rw [trimEnd_append_of_solid solid]
        exact ⟨start, c, rfl, solid⟩

theorem startsSolid_trimEnd (starts : StartsSolid s) : StartsSolid (trimEnd s) := by
  obtain ⟨c, rest, rfl, solid⟩ := starts
  induction length : rest.length generalizing rest with
  | zero =>
    obtain rfl := eq_nil_of_length_eq_zero length
    exact ⟨c, [], trimEnd_append_of_solid solid [], solid⟩
  | succ n ih =>
    rcases eq_nil_or_concat rest with rfl | ⟨start, d, rfl⟩
    · cases length
    · rw [concat_eq_append, ← cons_append]
      by_cases blank : isBlank d
      · rw [trimEnd_append_of_blank blank]
        exact ih start (by simpa using length)
      · have solidEnd : isSolid d := by simpa [isSolid] using blank
        rw [trimEnd_append_of_solid solidEnd]
        exact ⟨c, start ++ [d], rfl, solid⟩

theorem startsSolid_trimStart (nonempty : trimStart s ≠ []) : StartsSolid (trimStart s) := by
  induction s with
  | nil => exact absurd rfl nonempty
  | cons c s ih =>
    by_cases blank : isBlank c
    · rw [trimStart_cons_of_blank blank] at nonempty ⊢
      exact ih nonempty
    · have solid : isSolid c := by simpa [isSolid] using blank
      rw [trimStart_cons_of_solid solid]
      exact ⟨c, s, rfl, solid⟩

theorem blank_or_solid (s : List Char) :
    (∀ c ∈ s, isBlank c) ∨
      ∃ blanks c rest, s = blanks ++ c :: rest ∧ (∀ d ∈ blanks, isBlank d) ∧ isSolid c := by
  obtain ⟨blanks, shape, blank⟩ := exists_blanks s
  by_cases empty : trimStart s = []
  · rw [empty, append_nil] at shape
    exact .inl (shape ▸ blank)
  · obtain ⟨c, rest, starts, solid⟩ := startsSolid_trimStart empty
    exact .inr ⟨blanks, c, rest, by rw [← starts, ← shape], blank, solid⟩

theorem trimStart_trimStart (s : List Char) : trimStart (trimStart s) = trimStart s := by
  by_cases empty : trimStart s = []
  · rw [empty]
    rfl
  · exact trimStart_of_startsSolid (startsSolid_trimStart empty)

theorem trim_trimStart (s : List Char) : trim (trimStart s) = trim s := by
  rw [trim, trimStart_trimStart, trim]

theorem startsSolid_trim (nonempty : trim s ≠ []) : StartsSolid (trim s) := by
  have startNonempty : trimStart s ≠ [] := by
    intro empty
    rw [trim, empty] at nonempty
    exact nonempty rfl
  exact startsSolid_trimEnd (startsSolid_trimStart startNonempty)

theorem tidy_trim (nonempty : trim s ≠ []) (oneLine : '\n' ∉ s) : Tidy (trim s) :=
  ⟨startsSolid_trim nonempty, endsSolid_trimEnd nonempty,
    fun member => oneLine ((trim_sublist s).subset member)⟩

theorem trim_trim (s : List Char) : trim (trim s) = trim s := by
  by_cases empty : trim s = []
  · rw [empty]
    rfl
  · have ends : EndsSolid (trim s) := endsSolid_trimEnd empty
    rw [trim, trimStart_of_startsSolid (startsSolid_trim empty), trimEnd_of_endsSolid ends]

theorem trim_append_of_blank (blank : isBlank c) (s : List Char) : trim (s ++ [c]) = trim s := by
  unfold trim
  by_cases empty : trimStart s = []
  · have both : trimStart (s ++ [c]) = [] := by
      unfold trimStart at empty ⊢
      rw [dropWhile_append, empty]
      simp [blank]
    rw [both, empty]
  · have kept : trimStart (s ++ [c]) = trimStart s ++ [c] := by
      have present : (s.dropWhile isBlank).isEmpty = false := by simpa [trimStart] using empty
      unfold trimStart
      rw [dropWhile_append, present]
      rfl
    rw [kept, trimEnd_append_of_blank blank]

/-! ## Quotation marks -/

theorem stripQuotes_of_head (plain : c ≠ '"') : stripQuotes (c :: s) = c :: s := by
  simp [stripQuotes, plain]

theorem stripQuotes_quoted (inner : List Char) : stripQuotes ('"' :: inner ++ ['"']) = inner := by
  simp [stripQuotes]

theorem stripQuotes_of_noMark (noMark : '"' ∉ s) : stripQuotes s = s := by
  cases s with
  | nil => rfl
  | cons c rest =>
    refine stripQuotes_of_head ?_
    rintro rfl
    exact noMark mem_cons_self

theorem toList_quoteIfNeeded_of_space (space : ' ' ∈ text.toList) :
    (quoteIfNeeded text).toList = '"' :: text.toList ++ ['"'] := by
  rw [quoteIfNeeded, if_pos (contains_iff_mem.mpr space)]
  simp

theorem quoteIfNeeded_of_noSpace (noSpace : ' ' ∉ text.toList) : quoteIfNeeded text = text := by
  rw [quoteIfNeeded, if_neg fun space => noSpace (contains_iff_mem.mp space)]

theorem quoteIfNeeded_of_solid (solid : ∀ c ∈ text.toList, isSolid c) : quoteIfNeeded text = text :=
  quoteIfNeeded_of_noSpace fun space => absurd (solid _ space) (by decide)

/-! ## The content of lines -/

/-- The lines without indentation, and without empty ones. -/
def content (lines : List (List Char)) : List (List Char) :=
  (lines.map trim).filter fun line => !line.isEmpty

theorem content_append (first second : List (List Char)) :
    content (first ++ second) = content first ++ content second := by
  simp [content]

theorem content_cons (line : List Char) (lines : List (List Char)) :
    content (line :: lines) = if (trim line).isEmpty then content lines else trim line :: content lines := by
  simp only [content, map_cons, filter_cons]
  cases (trim line).isEmpty <;> simp

theorem eq_space_of_mem_indent {depth : Nat} (member : c ∈ (indent depth).toList) : c = ' ' := by
  induction depth with
  | zero => simp [indent] at member
  | succ depth ih =>
    rw [indent, String.toList_append, mem_append] at member
    rcases member with space | inner
    · have spaces : ∀ c ∈ "  ".toList, c = ' ' := by decide
      exact spaces c space
    · exact ih inner

theorem blank_indent (depth : Nat) : ∀ c ∈ (indent depth).toList, isBlank c := by
  intro c member
  rw [eq_space_of_mem_indent member]
  decide

theorem content_indented {depth : Nat} {lines : List String} (tidy : ∀ line ∈ lines, Tidy line.toList) :
    content ((lines.map (indent depth ++ ·)).map String.toList) = lines.map String.toList := by
  induction lines with
  | nil => rfl
  | cons line lines ih =>
    rw [forall_mem_cons] at tidy
    have trimmedLine : trim (indent depth ++ line).toList = line.toList := by
      rw [String.toList_append, tidy.1.trim_indented (blank_indent depth)]
    have nonempty : line.toList.isEmpty = false := by simpa using tidy.1.ne_nil
    simp only [map_cons, content_cons, trimmedLine, nonempty, ih tidy.2]
    rfl

/-! ## Cutting a text into lines -/

theorem splitAt_of_none (none : ∀ c ∈ s, p c = false) : splitAt p s = [s] := by
  induction s with
  | nil => rfl
  | cons c s ih =>
    rw [forall_mem_cons] at none
    rw [splitAt, ih none.2, none.1]
    rfl

theorem splitAt_append_cons {first : List Char} {sign : Char} (none : ∀ c ∈ first, p c = false)
    (found : p sign) (rest : List Char) :
    splitAt p (first ++ sign :: rest) = first :: splitAt p rest := by
  induction first with
  | nil => simp [splitAt, found]
  | cons c first ih =>
    rw [forall_mem_cons] at none
    rw [cons_append, splitAt, ih none.2, none.1]
    rfl

theorem splitAt_intercalate {lines : List (List Char)} (nonempty : lines ≠ [])
    (oneLine : ∀ line ∈ lines, '\n' ∉ line) : splitAt (· == '\n') (['\n'].intercalate lines) = lines := by
  induction lines with
  | nil => exact absurd rfl nonempty
  | cons first others ih =>
    rw [forall_mem_cons] at oneLine
    have none : ∀ c ∈ first, (c == '\n') = false := by
      intro c member
      rw [beq_eq_false_iff_ne]
      rintro rfl
      exact oneLine.1 member
    cases others with
    | nil => rw [intercalate_singleton, splitAt_of_none none]
    | cons second others =>
      rw [intercalate_cons_cons, append_assoc, singleton_append,
        splitAt_append_cons none rfl, ih (by simp) oneLine.2]

theorem trim_dropCarriageReturn (line : List Char) : trim (dropCarriageReturn line) = trim line := by
  unfold dropCarriageReturn
  split
  next ending =>
    obtain ⟨start, rfl⟩ := getLast?_eq_some_iff.mp ending
    rw [dropLast_concat, trim_append_of_blank (by decide)]
  · rfl

theorem splitAt_ne_nil (p : Char → Bool) (s : List Char) : splitAt p s ≠ [] := by
  induction s with
  | nil => simp [splitAt]
  | cons c s ih =>
    rw [splitAt]
    split
    · simp
    · split <;> simp

theorem content_map_dropCarriageReturn (lines : List (List Char)) :
    content (lines.map dropCarriageReturn) = content lines := by
  simp [content, Function.comp_def, trim_dropCarriageReturn]

theorem exists_lines_eq (s : List Char) :
    ∃ ended last, splitAt (· == '\n') s = ended ++ [last] ∧
      lines s = ended.map dropCarriageReturn ++ if last.isEmpty then [] else [last] := by
  rcases eq_nil_or_concat (splitAt (· == '\n') s) with nothing | ⟨ended, last, shape⟩
  · exact absurd nothing (splitAt_ne_nil _ s)
  · rw [concat_eq_append] at shape
    refine ⟨ended, last, shape, ?_⟩
    unfold lines
    rw [shape]
    cases last <;> simp

theorem content_lines (s : List Char) : content (lines s) = content (splitAt (· == '\n') s) := by
  obtain ⟨ended, last, shape, linesExact⟩ := exists_lines_eq s
  rw [shape, linesExact, content_append, content_append, content_map_dropCarriageReturn]
  cases last <;> rfl

theorem content_lines_intercalate {lines : List String} (oneLine : ∀ line ∈ lines, '\n' ∉ line.toList) :
    content (Text.lines ("\n".intercalate lines).toList) = content (lines.map String.toList) := by
  cases lines with
  | nil => rfl
  | cons first others =>
    rw [content_lines, String.toList_intercalate]
    exact congrArg content (splitAt_intercalate (by simp) (by simpa using oneLine))

theorem mem_splitAt {piece : List Char} (member : piece ∈ splitAt p s) :
    piece ⊆ s ∧ ∀ c ∈ piece, p c = false := by
  induction s generalizing piece with
  | nil => simp_all [splitAt]
  | cons c s ih =>
    rw [splitAt] at member
    split at member
    · rcases mem_cons.mp member with rfl | member
      · simp
      · exact (ih member).imp (subset_cons_of_subset c) id
    next absent =>
      split at member
      next nothing => exact absurd nothing (splitAt_ne_nil p s)
      next first others shape =>
        rw [shape] at ih
        rcases mem_cons.mp member with rfl | member
        · obtain ⟨within, none⟩ := ih (.head _)
          exact ⟨cons_subset_cons c within, forall_mem_cons.mpr ⟨by simpa using absent, none⟩⟩
        · exact (ih (.tail _ member)).imp (subset_cons_of_subset c) id

theorem exists_piece_of_mem (member : c ∈ s) (inside : p c = false) : ∃ piece ∈ splitAt p s, c ∈ piece := by
  induction s with
  | nil => cases member
  | cons d s ih =>
    rw [splitAt]
    split
    next cut =>
      obtain rfl | later := mem_cons.mp member
      · rw [inside] at cut
        cases cut
      · obtain ⟨piece, among, inPiece⟩ := ih later
        exact ⟨piece, mem_cons_of_mem _ among, inPiece⟩
    · obtain ⟨first, pieces, shape⟩ := exists_cons_of_ne_nil (splitAt_ne_nil p s)
      rw [shape] at ih ⊢
      obtain rfl | later := mem_cons.mp member
      · exact ⟨c :: first, mem_cons_self, mem_cons_self⟩
      · obtain ⟨piece, among, inPiece⟩ := ih later
        obtain rfl | further := mem_cons.mp among
        · exact ⟨d :: piece, mem_cons_self, mem_cons_of_mem _ inPiece⟩
        · exact ⟨piece, mem_cons_of_mem _ further, inPiece⟩

theorem exists_piece_of_mem_lines (member : line ∈ lines s) :
    ∃ piece ∈ splitAt (· == '\n') s, line.Sublist piece := by
  obtain ⟨ended, last, shape, linesExact⟩ := exists_lines_eq s
  rw [shape]
  rw [linesExact, mem_append] at member
  rcases member with within | isLast
  · obtain ⟨piece, among, rfl⟩ := mem_map.mp within
    refine ⟨piece, by simp [among], ?_⟩
    unfold dropCarriageReturn
    split
    · exact dropLast_sublist piece
    · exact List.Sublist.refl piece
  · split at isLast
    · cases isLast
    · rw [mem_singleton.mp isLast]
      exact ⟨last, by simp, List.Sublist.refl last⟩

theorem oneLine_of_mem_lines (member : line ∈ lines s) : '\n' ∉ line := by
  obtain ⟨piece, among, within⟩ := exists_piece_of_mem_lines member
  intro newline
  cases (mem_splitAt among).2 '\n' (within.subset newline)

end ArmorPolicy.Text
