import ArmorPolicy.Proofs.Line.Quotation
import ArmorPolicy.Proofs.Profile.Listing

/-!
# Headers of scopes

The header that a scope is listed with is read as what the scope states, where its name and its
attachment are legible in it.
-/

namespace ArmorPolicy

open List Text Line LineForm

/-! ## Flags -/

namespace Flags

/-- A flag is a word without the signs that end a list of flags. -/
structure IsFlag (flag : String) : Prop where
  nonempty : flag ≠ ""
  chars : ∀ c ∈ flag.toList, isBlank c = false ∧ c ≠ ',' ∧ c ≠ ')'

theorem separates_eq_false {flag : String} (valid : IsFlag flag) :
    flag.toList ≠ [] ∧ ∀ c ∈ flag.toList, (isBlank c || c == ',') = false := by
  refine ⟨by simpa using valid.nonempty, ?_⟩
  intro c member
  obtain ⟨solid, comma, _⟩ := valid.chars c member
  simp [solid, comma]

theorem ofText_intercalate {flags : SortedSet String} (valid : ∀ flag ∈ flags.toList, IsFlag flag) :
    ofText (", ".intercalate flags.toList) = flags := by
  have words : ∀ word ∈ flags.toList.map String.toList,
      word ≠ [] ∧ ∀ c ∈ word, (isBlank c || c == ',') = false := by
    intro word member
    obtain ⟨flag, among, rfl⟩ := mem_map.mp member
    exact separates_eq_false (valid flag among)
  have separated : fields (fun c => isBlank c || c == ',') (", ".intercalate flags.toList).toList =
      flags.toList.map String.toList := by
    rw [String.toList_intercalate]
    exact Text.fields_intercalate (by decide) (by decide) words
  rw [ofText, separated, map_map]
  simp only [Function.comp_def, String.ofList_toList, map_id']
  exact SortedSet.ofList_toList flags

theorem isFlag_of_mem_ofText {text flag : String} (noParenthesis : ')' ∉ text.toList)
    (member : flag ∈ (ofText text).toList) : IsFlag flag := by
  obtain ⟨word, among, rfl⟩ := mem_map.mp (SortedSet.mem_ofList.mp member)
  obtain ⟨nonempty, none⟩ := mem_fields among
  refine ⟨by simpa using nonempty, ?_⟩
  intro c inWord
  rw [String.toList_ofList] at inWord
  have separates := none c inWord
  simp only [Bool.or_eq_false_iff, beq_eq_false_iff_ne] at separates
  refine ⟨separates.1, separates.2, ?_⟩
  rintro rfl
  exact noParenthesis (subset_of_mem_fields among inWord)

theorem notMem_intercalate {flags : List String} (valid : ∀ flag ∈ flags, IsFlag flag) {c : Char}
    (flagChar : ∀ flag, IsFlag flag → c ∉ flag.toList) (comma : c ≠ ',') (space : c ≠ ' ') :
    c ∉ (", ".intercalate flags).toList := by
  rw [String.toList_intercalate]
  induction flags with
  | nil => simp
  | cons flag others ih =>
    rw [forall_mem_cons] at valid
    cases others with
    | nil => simpa using flagChar flag valid.1
    | cons second others =>
      rw [map_cons, map_cons, intercalate_cons_cons, ← map_cons]
      simp only [mem_append, not_or]
      refine ⟨⟨flagChar flag valid.1, ?_⟩, ih valid.2⟩
      simp [comma, space]

end Flags

/-! ## What a header states -/

namespace Scope

def shownName (scope : Scope) : String := if scope.external then scope.fullName else scope.name

def flagsText (scope : Scope) : Option String :=
  if scope.flags.isEmpty then none else some (", ".intercalate scope.flags.toList)

def details (scope : Scope) : HeaderDetails where
  attachment := scope.attachment.map Pattern.glob
  xattrs := scope.xattrs
  flags := scope.flagsText
  comment := scope.headerComment

def form (scope : Scope) : LineForm :=
  if scope.signed then
    .hat { name := scope.shownName, flags := scope.flagsText, comment := scope.headerComment }
  else .header { scope.details with name := scope.shownName, profileWord := scope.worded }

/-- What is read as a scope has a name, and details that fit into a header. -/
structure WellStated (scope : Scope) : Prop where
  named : scope.shownName ≠ ""
  name : LineForm.Quotable scope.shownName.toList ∧ '\n' ∉ scope.shownName.toList
  attachment : ∀ pattern, scope.attachment = some pattern →
    LineForm.startsPath pattern.glob.toList = true ∧ LineForm.Quotable pattern.glob.toList ∧
      '\n' ∉ pattern.glob.toList
  xattrs : ∀ text, scope.xattrs = some text →
    trim text.toList = text.toList ∧ ')' ∉ text.toList ∧ '\n' ∉ text.toList
  flags : ∀ flag ∈ scope.flags.toList, Flags.IsFlag flag
  comment : TrailingComment scope.headerComment
  hat : scope.signed = true → scope.attachment = none ∧ scope.xattrs = none

/-- Name and attachment can be read back from the header that the scope is listed with. -/
structure LegibleHeader (scope : Scope) : Prop where
  name : if scope.signed || scope.worded then LineForm.LegibleName scope.shownName.toList
    else LineForm.LegiblePath scope.shownName.toList
  attachment : ∀ pattern ∈ scope.attachment, LineForm.LegibleAttachment pattern.glob.toList

instance (scope : Scope) : Decidable scope.LegibleHeader :=
  decidable_of_iff
    ((if scope.signed || scope.worded then LineForm.LegibleName scope.shownName.toList
        else LineForm.LegiblePath scope.shownName.toList) ∧
      ∀ pattern ∈ scope.attachment, LineForm.LegibleAttachment pattern.glob.toList)
    ⟨fun both => ⟨both.1, both.2⟩, fun legible => ⟨legible.name, legible.attachment⟩⟩

variable {scope : Scope}

theorem flagsText_eq_some {text : String} (given : scope.flagsText = some text) :
    text = ", ".intercalate scope.flags.toList := by
  unfold flagsText at given
  split at given
  · cases given
  · exact (Option.some.inj given).symm

theorem WellStated.fitting (stated : scope.WellStated) : LineForm.FittingDetails scope.details := by
  refine ⟨?_, ?_, ?_, stated.comment⟩
  · intro glob given
    obtain ⟨pattern, attached, rfl⟩ := Option.map_eq_some_iff.mp given
    obtain ⟨path, quotable, _⟩ := stated.attachment pattern attached
    exact ⟨path, quotable⟩
  · intro text given
    exact ⟨(stated.xattrs text given).1, (stated.xattrs text given).2.1⟩
  · intro text given
    rw [flagsText_eq_some given]
    refine Flags.notMem_intercalate stated.flags ?_ (by decide) (by decide)
    intro flag valid member
    exact (valid.chars _ member).2.2 rfl

theorem LegibleHeader.details (legible : scope.LegibleHeader) :
    ∀ glob ∈ scope.details.attachment, LineForm.LegibleAttachment glob.toList := by
  intro glob given
  obtain ⟨pattern, attached, rfl⟩ := Option.map_eq_some_iff.mp given
  exact legible.attachment pattern attached

theorem WellStated.flags_eq (stated : scope.WellStated) :
    (scope.flagsText.map Flags.ofText).getD .empty = scope.flags := by
  unfold flagsText
  split
  next empty =>
    refine SortedSet.ext_toList ?_
    exact (isEmpty_iff.mp empty).symm
  · exact Flags.ofText_intercalate stated.flags

/-! ## The text of a header -/

def opening (scope : Scope) : List Char :=
  if scope.signed then ['^'] else if scope.worded then "profile ".toList else []

theorem toList_header (stated : scope.WellStated) :
    (scope.header 0).toList =
      scope.opening ++ ((quoteIfNeeded scope.shownName).toList ++ detailsText scope.details) := by
  have title : scope.title.toList = scope.opening ++ ((quoteIfNeeded scope.shownName).toList ++
      partText " " "" (scope.details.attachment.map quoteIfNeeded)) := by
    rw [title_eq, opening, details, headerName, shownName]
    cases signed : scope.signed with
    | true => simp [(stated.hat signed).1, partText]
    | false => cases scope.attachment <;> cases scope.worded <;> simp [partText]
  have header : (scope.header 0).toList = scope.title.toList ++ behindAttachment scope.details := by
    unfold Scope.header behindAttachment details flagsText
    cases scope.xattrs <;> cases scope.flags.isEmpty <;> simp [partText, indent]
  simp only [header, title, detailsText, append_assoc]

theorem path_of_unworded (unworded : scope.worded = false) :
    quoteIfNeeded scope.shownName = scope.shownName ∧ scope.shownName.toList.head? = some '/' ∧
      scope.attachment = none := by
  have shown : scope.headerName = quoteIfNeeded scope.shownName := rfl
  simp only [worded, shown, Bool.or_eq_false_iff, Bool.not_eq_false', Bool.and_eq_true,
    Option.isSome_eq_false_iff, Option.isNone_iff_eq_none, beq_iff_eq] at unworded
  obtain ⟨⟨_, noAttachment⟩, path, _⟩ := unworded
  have noSpace : ' ' ∉ scope.shownName.toList := by
    intro space
    rw [toList_quoteIfNeeded_of_space space] at path
    cases path
  rw [quoteIfNeeded_of_noSpace noSpace] at path ⊢
  exact ⟨rfl, path, noAttachment⟩

theorem ofLine_header (stated : scope.WellStated) (legible : scope.LegibleHeader) :
    ofLine (scope.header 0).toList = scope.form := by
  have name := legible.name
  rw [toList_header stated, opening, form]
  cases signed : scope.signed with
  | true =>
    obtain ⟨noAttachment, noXattrs⟩ := stated.hat signed
    rw [signed, Bool.true_or, if_pos rfl] at name
    exact ofLine_hat stated.fitting stated.named stated.name.1 name (by simp [details, noAttachment])
      (by simp [details, noXattrs])
  | false =>
    rw [signed, Bool.false_or] at name
    have read : header? ((if scope.worded then "profile ".toList else []) ++
        ((quoteIfNeeded scope.shownName).toList ++ detailsText scope.details)) =
          some { scope.details with name := scope.shownName, profileWord := scope.worded } := by
      cases worded : scope.worded with
      | true =>
        rw [worded, if_pos rfl] at name
        exact header?_worded stated.fitting legible.details stated.named stated.name.1 name
      | false =>
        obtain ⟨plain, path, _⟩ := path_of_unworded worded
        rw [worded, if_neg Bool.false_ne_true] at name
        rw [if_neg Bool.false_ne_true, plain, nil_append]
        exact header?_path stated.fitting legible.details path name
    rw [if_neg Bool.false_ne_true, if_neg Bool.false_ne_true, ofLine, read]

theorem newline_notMem_quoteIfNeeded {text : String} (oneLine : '\n' ∉ text.toList) :
    '\n' ∉ (quoteIfNeeded text).toList := by
  by_cases space : ' ' ∈ text.toList
  · simp [toList_quoteIfNeeded_of_space space, oneLine]
  · rwa [quoteIfNeeded_of_noSpace space]

theorem newline_notMem_details (stated : scope.WellStated) : '\n' ∉ detailsText scope.details := by
  have attachment : '\n' ∉ partText " " "" (scope.details.attachment.map quoteIfNeeded) := by
    unfold details
    cases attached : scope.attachment with
    | none => simp [partText]
    | some pattern =>
      simp [partText, newline_notMem_quoteIfNeeded (stated.attachment pattern attached).2.2]
  have xattrs : '\n' ∉ partText " xattrs=(" ")" scope.xattrs := by
    cases given : scope.xattrs with
    | none => simp [partText]
    | some text => simp [partText, (stated.xattrs text given).2.2]
  have flags : '\n' ∉ partText " flags=(" ")" scope.flagsText := by
    cases given : scope.flagsText with
    | none => simp [partText]
    | some text =>
      have absent : '\n' ∉ text.toList := by
        rw [flagsText_eq_some given]
        refine Flags.notMem_intercalate stated.flags ?_ (by decide) (by decide)
        intro flag valid member
        exact absurd (valid.chars _ member).1 (by decide)
      simp [partText, absent]
  simp only [detailsText, behindAttachment, mem_append, mem_cons, not_or]
  exact ⟨attachment, xattrs, flags, by decide, by decide, stated.comment.oneLine⟩

theorem endsSolid_details (stated : scope.WellStated) : EndsSolid (detailsText scope.details) := by
  have closing : EndsSolid (' ' :: '{' :: scope.details.comment.toList) := by
    rcases stated.comment with empty | ⟨rest, text, ends, _⟩
    · exact ⟨[' '], '{', by simp [details, empty], by decide⟩
    · rw [details, text]
      exact ((ends.cons ' ').cons '{').cons ' '
  exact ((closing.append _).append _).append _

theorem tidy_header (stated : scope.WellStated) : Tidy (scope.header 0).toList := by
  rw [toList_header stated]
  refine ⟨?_, ((endsSolid_details stated).append _).append _, ?_⟩
  · unfold opening
    split
    · exact ⟨'^', _, rfl, by decide⟩
    · split
      · exact ⟨'p', _, rfl, by decide⟩
      next unworded =>
        obtain ⟨plain, path, _⟩ := path_of_unworded (by simpa using unworded)
        obtain ⟨rest, shape⟩ := head?_eq_some_iff.mp path
        rw [plain, shape]
        exact ⟨'/', _, rfl, by decide⟩
  · have opening : '\n' ∉ scope.opening := by
      unfold opening
      split
      · decide
      · split <;> decide
    simp [opening, newline_notMem_quoteIfNeeded stated.name.2, newline_notMem_details stated]

end Scope

end ArmorPolicy
