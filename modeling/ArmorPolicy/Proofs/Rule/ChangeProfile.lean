import ArmorPolicy.Proofs.Glob.Literal
import ArmorPolicy.Proofs.Line.Path
import ArmorPolicy.Proofs.Rule.Dispatch

/-!
# Canonical lines of changes of profile

The condition is a path and the target a word or a text between quotation marks.  What is written for
them is read again as the same parts, unless a blank other than the space or a comment sign is in the
way.
-/

namespace ArmorPolicy

open Checked List Option Text Line

/-! ## Patterns as they are written -/

def Extent.written (value : Extent Pattern) : Option (List Char) :=
  value.value?.map fun pattern => (quoteIfNeeded pattern.glob).toList

theorem Extent.text_written (value : Extent Pattern) (sign : String) :
    (value.text fun pattern => sign ++ quoteIfNeeded pattern.glob).toList =
      (value.written.map (sign.toList ++ ·)).getD [] := by
  cases value with
  | all => rfl
  | only pattern => simp [Extent.text, Extent.written, Extent.value?]

theorem targetText_eq (target : Option (List Char)) :
    targetText target = (target.map (" -> ".toList ++ ·)).getD [] := by
  cases target <;> rfl

def Extent.WritablePath (value : Extent Pattern) : Prop :=
  ∀ pattern ∈ value.value?, Line.WritablePath pattern.glob.toList

def Extent.WritableTarget (value : Extent Pattern) : Prop :=
  ∀ pattern ∈ value.value?, Line.WritableTarget pattern.glob.toList

instance (value : Extent Pattern) : Decidable value.WritablePath :=
  inferInstanceAs (Decidable (∀ pattern ∈ value.value?, _))

instance (value : Extent Pattern) : Decidable value.WritableTarget :=
  inferInstanceAs (Decidable (∀ pattern ∈ value.value?, _))

theorem Extent.WritablePath.pathText {value : Extent Pattern} (writable : value.WritablePath) :
    ∀ path ∈ value.written, PathText path ∧ '\n' ∉ path := by
  intro path among
  obtain ⟨pattern, member, rfl⟩ := map_eq_some_iff.mp among
  have oneLine := (writable pattern member).2.2.1
  exact ⟨(writable pattern member).pathText,
    quoteIfNeeded_of (P := fun s => '\n' ∉ s) oneLine (by simpa using oneLine)⟩

theorem Extent.WritableTarget.targetText {value : Extent Pattern} (writable : value.WritableTarget) :
    ∀ word ∈ value.written, TargetText word := by
  intro word among
  obtain ⟨pattern, member, rfl⟩ := map_eq_some_iff.mp among
  exact (writable pattern member).targetText

theorem Line.oneLine_targetText {target : Option (List Char)} (texts : ∀ word ∈ target, TargetText word) :
    '\n' ∉ targetText target := by
  cases target with
  | none => simp [targetText]
  | some word => simp [targetText, (texts word rfl).oneLine]

namespace ChangeProfile

theorem patternOf_written {isPath : Bool} {found : Option (List Char)} {value : Extent Pattern}
    (noMark : ∀ pattern ∈ value.value?, '"' ∉ pattern.glob.toList)
    (made : patternOf isPath found = .ok value) : patternOf isPath value.written = .ok value := by
  cases found with
  | none =>
    cases made
    rfl
  | some word =>
    obtain ⟨pattern, ofText, rfl⟩ := Checked.map_eq_ok.mp made
    have glob : pattern.glob = String.ofList (stripQuotes word) := by rw [Pattern.ofText_eq_ok ofText]
    refine Checked.map_eq_ok.mpr ⟨pattern, ?_, rfl⟩
    rw [stripQuotes_quoteIfNeeded (noMark pattern rfl), glob]
    exact ofText

theorem glob_of_patternOf {isPath : Bool} {found : Option (List Char)} {value : Extent Pattern}
    (noMark : ∀ word ∈ found, '"' ∉ word) (made : patternOf isPath found = .ok value) :
    ∀ pattern ∈ value.value?, pattern.glob.toList ∈ found := by
  cases found with
  | none =>
    cases made
    rintro _ ⟨⟩
  | some word =>
    obtain ⟨pattern, ofText, rfl⟩ := map_eq_ok.mp made
    rintro _ ⟨⟩
    rw [Pattern.ofText_eq_ok ofText, stripQuotes_of_noMark (noMark word rfl)]
    simp

theorem writable_of_patternOf {isPath : Bool} {found : Option (List Char)} {value : Extent Pattern}
    (plain : PlainTarget found) (noMark : ∀ word ∈ found, '"' ∉ word)
    (made : patternOf isPath found = .ok value) : value.WritableTarget := by
  intro pattern member
  have among := glob_of_patternOf noMark made pattern member
  have solid := (plain _ among).2
  exact ⟨(plain _ among).1, noMark _ among, fun newline => absurd (solid '\n' newline) (by decide), .inr solid⟩

/-! ## Parts -/

def Parts.text (parts : Parts) : List Char :=
  (parts.scrubbing.map fun scrubbing => ' ' :: scrubbing.word.toList).getD [] ++
    ((parts.condition.map (' ' :: ·)).getD [] ++ targetText parts.target)

/-- The pieces are such that their text can be read again. -/
structure Parts.Readable (parts : Parts) : Prop where
  condition : ∀ path ∈ parts.condition, PathText path ∧ '\n' ∉ path
  target : ∀ word ∈ parts.target, TargetText word

def readParts? (s : List Char) : Option (Parts × String) :=
  (scrubbingCuts s).findSome? fun (scrubbing, s) =>
    (condition? targetEnding? s).map fun (condition, target, comment) =>
      (⟨scrubbing, condition, target⟩, comment)

theorem read?_eq : read? = withModifiers fun s => (after? "change_profile" s).bind readParts? := rfl

theorem scrubbingCuts_suffix {s rest : List Char} {scrubbing : Option Scrubbing}
    (member : (scrubbing, rest) ∈ scrubbingCuts s) : rest <:+ s := by
  have word : ∀ word : Scrubbing,
      (scrubbing, rest) ∈
        (((afterBlanks? s).bind (after? word.word)).map fun rest => (some word, rest)).toList →
      rest <:+ s := by
    intro word found
    rw [mem_toList, map_eq_some_iff] at found
    obtain ⟨behind, cut, same⟩ := found
    obtain ⟨t, blanks, after⟩ := bind_eq_some_iff.mp cut
    cases same
    exact (suffix_of_after? after).trans (afterBlanks?_suffix blanks)
  simp only [scrubbingCuts, mem_append] at member
  rcases member with (safe | keeping) | unstated
  · exact word .safe safe
  · exact word .keeping keeping
  · obtain ⟨-, rfl⟩ := Prod.mk.inj (mem_singleton.mp unstated)
    exact suffix_refl rest

theorem trailingComment_of_readParts? {s : List Char} {parts : Parts} {comment : String}
    (found : readParts? s = some (parts, comment)) : TrailingComment comment := by
  obtain ⟨⟨scrubbing, t⟩, member, success⟩ := exists_of_findSome?_eq_some found
  obtain ⟨⟨condition, target, comment⟩, further, ⟨⟩⟩ := map_eq_some_iff.mp success
  unfold condition? at further
  split at further
  next path value conditioned =>
    cases further
    obtain ⟨u, blanks, isPath⟩ := bind_eq_some_iff.mp conditioned
    obtain ⟨rest, ending⟩ := exists_read_of_path? isPath
    exact (targetEnding?_eq_some ending).1
  · obtain ⟨⟨target, comment⟩, ending, ⟨⟩⟩ := map_eq_some_iff.mp further
    exact (targetEnding?_eq_some ending).1

theorem readParts?_eq_some {s : List Char} {parts : Parts} {comment : String} (noMark : '"' ∉ s)
    (found : readParts? s = some (parts, comment)) :
    (∀ path ∈ parts.condition, PathText path ∧ '"' ∉ path) ∧
      PlainTarget parts.target ∧ ∀ word ∈ parts.target, '"' ∉ word := by
  obtain ⟨⟨scrubbing, t⟩, member, success⟩ := exists_of_findSome?_eq_some found
  obtain ⟨⟨condition, target, comment⟩, further, ⟨⟩⟩ := map_eq_some_iff.mp success
  have noMarkHere : '"' ∉ t := fun mark => noMark ((scrubbingCuts_suffix member).subset mark)
  unfold condition? at further
  split at further
  next path value conditioned =>
    cases further
    obtain ⟨u, blanks, isPath⟩ := bind_eq_some_iff.mp conditioned
    have noMarkBehind : '"' ∉ u := fun mark => noMarkHere ((afterBlanks?_suffix blanks).subset mark)
    obtain ⟨valid, rest, rfl, ending⟩ := path?_eq_some isPath noMarkBehind
    rw [mem_append, not_or] at noMarkBehind
    obtain ⟨plain, inTarget⟩ := (targetEnding?_eq_some ending).2 noMarkBehind.2
    refine ⟨?_, plain, fun word among mark => noMarkBehind.2 (inTarget word among mark)⟩
    rintro _ ⟨⟩
    exact ⟨valid, noMarkBehind.1⟩
  · obtain ⟨⟨target, comment⟩, ending, ⟨⟩⟩ := map_eq_some_iff.mp further
    obtain ⟨plain, inTarget⟩ := (targetEnding?_eq_some ending).2 noMarkHere
    refine ⟨?_, plain, fun word among mark => noMarkHere (inTarget word among mark)⟩
    rintro _ ⟨⟩

namespace Parts.Readable

variable {parts : Parts} (readable : parts.Readable)
include readable

theorem after?_scrubbing (comment : String) (word : Scrubbing) :
    (afterBlanks? ((parts.condition.map (' ' :: ·)).getD [] ++ targetText parts.target ++
      ',' :: comment.toList)).bind (after? word.word) = none := by
  have first : ∀ c ∈ ['/', '@', '"', '-'], ∀ rest, after? word.word (c :: rest) = none := by
    intro c among rest
    refine after?_eq_none (notStarts_of_head ?_)
    revert c among
    cases word <;> decide
  cases condition : parts.condition with
  | some path =>
    have isPath := (readable.condition path condition).1
    obtain ⟨c, others, text, among⟩ := isPath.starts
    have starts : StartsSolid (path ++ targetText parts.target ++ ',' :: comment.toList) :=
      (isPath.startsSolid.append _).append _
    simp only [map_some, getD_some, cons_append, afterBlanks?_space starts, bind_some]
    rw [text]
    exact first c (mem_append_left ['-'] among) _
  | none =>
    cases target : parts.target with
    | none =>
      simp [targetText, afterBlanks?_of_startsSolid ⟨',', comment.toList, rfl, by decide⟩]
    | some name =>
      have arrow : StartsSolid ('-' :: '>' :: ' ' :: (name ++ ',' :: comment.toList)) :=
        ⟨'-', _, rfl, by decide⟩
      simp only [map_none, getD_none, nil_append, targetText, cons_append,
        afterBlanks?_space arrow, bind_some]
      exact first '-' (by decide) _

variable {comment : String} (valid : TrailingComment comment)
include valid

theorem condition?_text :
    condition? targetEnding? ((parts.condition.map (' ' :: ·)).getD [] ++ targetText parts.target ++
      ',' :: comment.toList) = some (parts.condition, parts.target, comment) := by
  have ending := targetEnding?_append valid readable.target
  cases condition : parts.condition with
  | some path =>
    have isPath := (readable.condition path condition).1
    have starts : StartsSolid (path ++ (targetText parts.target ++ ',' :: comment.toList)) :=
      isPath.startsSolid.append _
    have found := isPath.path?_append (fun _ _ => targetEnding?_later valid) ending
    simp only [condition?, map_some, getD_some, append_assoc, cons_append,
      afterBlanks?_space starts, bind_some, found]
  | none =>
    have unconditioned : (afterBlanks? (targetText parts.target ++ ',' :: comment.toList)).bind
        (path? targetEnding?) = none := by
      cases target : parts.target with
      | none => simp [targetText, afterBlanks?_of_startsSolid ⟨',', comment.toList, rfl, by decide⟩]
      | some name =>
        have arrow : StartsSolid ('-' :: '>' :: ' ' :: (name ++ ',' :: comment.toList)) :=
          ⟨'-', _, rfl, by decide⟩
        simp [targetText, afterBlanks?_space arrow, path?]
    simp only [condition?, map_none, getD_none, nil_append, unconditioned, ending, map_some]

theorem readParts?_text : readParts? (parts.text ++ ',' :: comment.toList) = some (parts, comment) := by
  have found := readable.condition?_text valid
  have unread := readable.after?_scrubbing comment
  obtain ⟨scrubbing, condition, target⟩ := parts
  cases scrubbing with
  | none =>
    simp only [text, map_none, getD_none, nil_append, readParts?, scrubbingCuts,
      unread, toList_none, append_nil, findSome?_cons, found, map_some]
  | some word =>
    have cut : ∃ others, scrubbingCuts (' ' :: (word.word.toList ++
        ((condition.map (' ' :: ·)).getD [] ++ targetText target ++ ',' :: comment.toList))) =
          (some word, (condition.map (' ' :: ·)).getD [] ++ targetText target ++
            ',' :: comment.toList) :: others := by
      have start : ∀ t, afterBlanks? (' ' :: (word.word.toList ++ t)) = some (word.word.toList ++ t) := by
        intro t
        refine afterBlanks?_space ?_
        cases word
        · exact ⟨'s', _, rfl, by decide⟩
        · exact ⟨'u', _, rfl, by decide⟩
      cases word with
      | safe =>
        simp only [scrubbingCuts, start, bind_some, after?_append, map_some,
          toList_some, cons_append, nil_append]
        exact ⟨_, rfl⟩
      | keeping =>
        have other : ∀ t, after? Scrubbing.safe.word (Scrubbing.keeping.word.toList ++ t) = none :=
          fun t => after?_eq_none (notStarts_of_head (by decide))
        simp only [scrubbingCuts, start, bind_some, other, after?_append, map_some,
          map_none, toList_some, toList_none, cons_append, nil_append]
        exact ⟨_, rfl⟩
    obtain ⟨others, cut⟩ := cut
    have shape : Parts.text ⟨some word, condition, target⟩ ++ ',' :: comment.toList =
        ' ' :: (word.word.toList ++
          ((condition.map (' ' :: ·)).getD [] ++ targetText target ++ ',' :: comment.toList)) := by
      simp [text]
    simp only at found
    simp only [shape, readParts?, cut, findSome?_cons, found, map_some]

end Parts.Readable

/-- What is written for the condition and the target is read as them. -/
def Legible (change : ChangeProfile) : Prop :=
  change.condition.WritablePath ∧ change.target.WritableTarget

instance (change : ChangeProfile) : Decidable change.Legible :=
  inferInstanceAs (Decidable (_ ∧ _))

def written (change : ChangeProfile) : Parts :=
  ⟨change.scrubbing, change.condition.written, change.target.written⟩

theorem text_toList (change : ChangeProfile) :
    change.text.toList = "change_profile".toList ++ change.written.text := by
  obtain ⟨scrubbing, conditionOf, targetOf⟩ := change
  have first := conditionOf.text_written " "
  have second := targetOf.text_written " -> "
  rw [← targetText_eq] at second
  unfold text
  generalize conditionOf.text (fun pattern => " " ++ quoteIfNeeded pattern.glob) = one at first
  generalize targetOf.text (fun pattern => " -> " ++ quoteIfNeeded pattern.glob) = other at second
  rw [String.toList_append, String.toList_append, String.toList_append, first, second,
    append_assoc, append_assoc]
  cases scrubbing with
  | none => rfl
  | some scrubbing =>
    rw [String.toList_append]
    rfl

theorem ofParts_eq_ok {parts : Parts} {change : ChangeProfile} (made : ofParts parts = .ok change) :
    patternOf true parts.condition = .ok change.condition ∧
      patternOf false parts.target = .ok change.target ∧
        make change.scrubbing change.condition change.target = .ok change := by
  obtain ⟨condition, conditionOf, made⟩ := Checked.bind_eq_ok.mp made
  obtain ⟨target, targetOf, made⟩ := Checked.bind_eq_ok.mp made
  have same : change = ⟨parts.scrubbing, condition, target⟩ := by
    unfold make at made
    split at made
    · cases made
    · split at made <;> cases made
      rfl
  subst same
  exact ⟨conditionOf, targetOf, made⟩

namespace Legible

variable {change : ChangeProfile} (legible : change.Legible)
include legible

theorem readable : change.written.Readable := ⟨legible.1.pathText, legible.2.targetText⟩

theorem ofParts_written {parts : Parts} (made : ofParts parts = .ok change) :
    ofParts change.written = .ok change := by
  obtain ⟨condition, target, made⟩ := ofParts_eq_ok made
  have first := patternOf_written (fun pattern member => (legible.1 pattern member).2.1) condition
  have second := patternOf_written (fun pattern member => (legible.2 pattern member).2.1) target
  exact Checked.bind_eq_ok.mpr ⟨_, first, Checked.bind_eq_ok.mpr ⟨_, second, made⟩⟩

end Legible

theorem Parts.Readable.oneLine {parts : Parts} (readable : parts.Readable) : '\n' ∉ parts.text := by
  have behind := oneLine_targetText readable.target
  have condition := readable.condition
  obtain ⟨scrubbing, path, word⟩ := parts
  have first : '\n' ∉ (scrubbing.map fun scrubbing => ' ' :: scrubbing.word.toList).getD [] := by
    rcases scrubbing with _ | ⟨_ | _⟩ <;> decide
  have second : '\n' ∉ (path.map (' ' :: ·)).getD [] := by
    cases path with
    | none => simp
    | some path => simpa using (condition path rfl).2
  simp only [text, mem_append, not_or]
  exact ⟨first, second, behind⟩

end ChangeProfile

namespace Rule

variable {rule : Rule} {line : List Char} {change : ChangeProfile}

theorem legible_of_changeProfile (plain : '"' ∉ line) (success : readAs? .changeProfile line = some (.ok rule))
    (body : rule.body = .changeProfile change) : change.Legible := by
  simp only [readAs?, ChangeProfile.read?_eq] at success
  obtain ⟨s, parts, suffix, readable, made, _⟩ := readBy_withModifiers_eq_ok success
  obtain ⟨t, behind, found⟩ := bind_eq_some_iff.mp readable
  obtain ⟨_, isChange, shape⟩ := map_eq_ok.mp made
  cases shape.trans body
  have within : t ⊆ line :=
    (((suffix_of_after? behind).trans suffix).sublist.trans (trimStart_sublist line)).subset
  obtain ⟨condition, target, noMark⟩ :=
    ChangeProfile.readParts?_eq_some (fun mark => plain (within mark)) found
  obtain ⟨conditionOf, targetOf, _⟩ := ChangeProfile.ofParts_eq_ok isChange
  refine ⟨fun pattern member => ?_, ChangeProfile.writable_of_patternOf target noMark targetOf⟩
  have among := ChangeProfile.glob_of_patternOf (fun path among => (condition path among).2) conditionOf
    pattern member
  exact (condition _ among).1.writable (condition _ among).2

theorem recovered_changeProfile (success : readAs? .changeProfile line = some (.ok rule))
    (body : rule.body = .changeProfile change) (legible : change.Legible) : rule.Restored line := by
  have kind := kind_of_readAs? success
  have comma : rule.kind.terminator = "," := by
    rw [kind]
    rfl
  simp only [readAs?, ChangeProfile.read?_eq] at success
  obtain ⟨s, parts, suffix, readable, made, stated, _⟩ := readBy_withModifiers_eq_ok success
  obtain ⟨t, behind, found⟩ := bind_eq_some_iff.mp readable
  obtain ⟨_, isChange, shape⟩ := map_eq_ok.mp made
  cases shape.trans body
  have comment := ChangeProfile.trailingComment_of_readParts? found
  have bodyText : rule.body.text.toList = "change_profile".toList ++ change.written.text := by
    rw [← shape]
    exact change.text_toList
  have keyworded : rule.Keyworded line :=
    keyworded_of_comma (showsModifiers_of_kind (by rw [kind]; rfl)) comma (by rw [kind]; decide) bodyText
      stated comment fun _ => legible.readable.oneLine
  have again : ChangeProfile.read? rule.canonical.toList =
      some ⟨rule.base.audit, rule.base.decision, rule.base.comment, change.written⟩ := by
    rw [ChangeProfile.read?_eq]
    refine keyworded.withModifiers_canonical ?_
    rw [statementText_of_comma comma bodyText, after?_append, bind_some]
    exact legible.readable.readParts?_text comment
  exact keyworded.recovered_rewritten kind (readAs?.eq_5 _) again
    (map_eq_ok.mpr ⟨change, legible.ofParts_written isChange, shape⟩)

end Rule

end ArmorPolicy
