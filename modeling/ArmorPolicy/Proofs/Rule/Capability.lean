import ArmorPolicy.Proofs.Data.Sorted
import ArmorPolicy.Proofs.Rule.Dispatch

/-!
# Canonical lines of capabilities

The names of a capability rule reach as far as a comma can end the line, also where that comma stands
in what looks like a comment.  Written in order and with single spaces, they are read again.
-/

namespace ArmorPolicy

open SortedSet List Option Text Line

namespace Capability

/-- Whether a start so far ends in a name; the first argument tells it for the empty one. -/
def endsName : Bool → List Char → Bool
  | named, [] => named
  | _, c :: rest => endsName (isSolid c) rest

theorem endsName_iff (named : Bool) {start : List Char} (nonempty : start ≠ []) :
    endsName named start ↔ EndsSolid start := by
  induction start generalizing named with
  | nil => exact absurd rfl nonempty
  | cons c rest ih =>
    cases rest with
    | nil =>
      constructor
      · intro solid
        exact ⟨[], c, rfl, solid⟩
      · rintro ⟨start, last, same, solid⟩
        cases start with
        | nil =>
          rw [List.cons.inj same |>.1]
          exact solid
        | cons d start => simp at same
    | cons d rest =>
      rw [endsName, ih _ (by simp)]
      exact ⟨fun ends => ends.cons c, fun ends => ends.of_cons (by simp)⟩

theorem namesFrom?_eq_none_iff {named : Bool} {s : List Char} :
    namesFrom? named s = none ↔
      ∀ start suffix, s = start ++ suffix → endsName named start → commaEnding? suffix = none := by
  induction s generalizing named with
  | nil =>
    simp only [namesFrom?, true_iff]
    intro start suffix split _
    rw [(append_eq_nil_iff.mp split.symm).2]
    rfl
  | cons c rest ih =>
    have here : namesFrom? named (c :: rest) = none ↔
        namesFrom? (isSolid c) rest = none ∧ (named → commaEnding? (c :: rest) = none) := by
      rw [namesFrom?]
      cases namesFrom? (isSolid c) rest with
      | some found => simp [behind]
      | none => cases named <;> simp [behind]
    rw [here, ih]
    constructor
    · rintro ⟨further, unnamed⟩ start suffix split ends
      cases start with
      | nil =>
        rw [nil_append] at split
        rw [← split]
        exact unnamed ends
      | cons d start =>
        obtain ⟨rfl, rfl⟩ := List.cons.inj split
        exact further start suffix rfl ends
    · intro all
      refine ⟨fun start suffix split ends => ?_, fun ends => all [] _ rfl ends⟩
      exact all (c :: start) suffix (by rw [split, cons_append]) ends

theorem namesFrom?_append {named : Bool} {part rest : List Char} {comment : String}
    (ends : endsName named part) (found : commaEnding? rest = some comment)
    (later : ∀ start suffix, rest = start ++ suffix → EndsSolid start → commaEnding? suffix = none) :
    namesFrom? named (part ++ rest) = some (part, comment) := by
  induction part generalizing named with
  | nil =>
    cases rest with
    | nil => cases found
    | cons c rest =>
      have none : namesFrom? (isSolid c) rest = none := by
        rw [namesFrom?_eq_none_iff]
        intro start suffix split solid
        exact later (c :: start) suffix (by rw [split, cons_append]) ((endsName_iff named (by simp)).mp solid)
      rw [endsName] at ends
      rw [nil_append, namesFrom?, none, ends]
      simp [behind, found]
  | cons c part ih =>
    rw [cons_append, namesFrom?, ih ends]
    rfl

theorem namesFrom?_eq_some {named : Bool} {s part : List Char} {comment : String}
    (found : namesFrom? named s = some (part, comment)) :
    ∃ rest, s = part ++ rest ∧ endsName named part ∧ commaEnding? rest = some comment ∧
      ∀ start suffix, rest = start ++ suffix → EndsSolid start → commaEnding? suffix = none := by
  induction s generalizing named part with
  | nil => cases found
  | cons c rest ih =>
    rw [namesFrom?] at found
    cases further : namesFrom? (isSolid c) rest with
    | some result =>
      obtain ⟨inner, ending⟩ := result
      simp only [further, behind, map_some, Option.some.injEq, Prod.mk.injEq] at found
      obtain ⟨rfl, rfl⟩ := found
      obtain ⟨tail, split, ends, ending, later⟩ := ih further
      exact ⟨tail, by simp [split], ends, ending, later⟩
    | none =>
      simp only [further, behind, map_none] at found
      split at found
      next ends =>
        obtain ⟨ending, isEnd, ⟨⟩⟩ := map_eq_some_iff.mp found
        refine ⟨c :: rest, rfl, ends, isEnd, ?_⟩
        intro start suffix split solid
        obtain ⟨d, begun, rfl⟩ := exists_cons_of_ne_nil solid.ne_nil
        obtain ⟨rfl, rfl⟩ := List.cons.inj split
        exact namesFrom?_eq_none_iff.mp further begun suffix rfl ((endsName_iff named (by simp)).mpr solid)
      · cases found

theorem nameProblem_of_solidWord {name : String} (valid : SolidWord name) : nameProblem name = false := by
  have solid : name.toList.any isBlank = false := by
    rw [List.any_eq_false]
    intro c member
    simp [isBlank_eq_false_iff.mpr (valid.solid c member)]
  have nonempty : (trim name.toList).isEmpty = false := by
    rw [trim, trimStart_of_startsSolid valid.starts, trimEnd_of_endsSolid valid.ends]
    simpa using valid.nonempty
  simp [nameProblem, solid, nonempty]

theorem ofNames_eq_ok_iff {names : List String} (valid : ∀ name ∈ names, SolidWord name)
    {capability : Capability} :
    ofNames names = .ok capability ↔ names ≠ [] ∧ capability = ⟨.only (SortedSet.ofList names)⟩ := by
  have none : names.find? nameProblem = none := by
    rw [find?_eq_none]
    intro name member
    simp [nameProblem_of_solidWord (valid name member)]
  have empty : (SortedSet.ofList names).isEmpty ↔ names = [] := by
    rw [SortedSet.isEmpty, List.isEmpty_iff, eq_nil_iff_forall_not_mem, eq_nil_iff_forall_not_mem]
    simp only [mem_ofList]
  simp only [ofNames, none]
  by_cases nil : names = []
  · rw [if_pos (empty.mpr nil)]
    simp [nil, reject]
  · rw [if_neg (mt empty.mp nil), Except.ok.injEq]
    simp only [ne_eq, nil, not_false_eq_true, true_and]
    exact eq_comm

end Capability

namespace Rule

variable {rule : Rule} {line : List Char}

theorem kind_of_capability {content : Capability} (shape : rule.body = .capability content) :
    rule.kind = .capability ∧ rule.kind.showsModifiers ∧ "capability" ∈ rule.kind.keywords := by
  have kind : rule.kind = .capability := by rw [Rule.kind, shape]; rfl
  rw [kind]
  decide

theorem recovered_of_all (shape : rule.body = .capability ⟨.all⟩) (stated : rule.base.Stated)
    (valid : TrailingComment rule.base.comment) : rule.Restored line := by
  obtain ⟨kind, shows, member⟩ := kind_of_capability shape
  have bodyText : rule.body.text.toList = "capability".toList ++ spacedPart [] := by
    rw [shape]
    rfl
  have keyworded : rule.Keyworded line := keyworded_of_body shows member bodyText stated valid (by simp)
  have made : Capability.ofParts none = .ok ⟨.all⟩ := rfl
  refine keyworded.recovered_rewritten kind (readAs?.eq_4 _) (keyworded.withModifiers_canonical ?_)
    (Checked.map_eq_ok.mpr ⟨_, made, shape.symm⟩)
  have noNames : Capability.names? ([] ++ ',' :: rule.base.comment.toList) = none := rfl
  rw [statementText_of_body shows bodyText, after?_append, bind_some, spacedPart, noNames,
    nil_append, commaEnding?_of_trailingComment valid]
  rfl

theorem recovered_of_names {names : SortedSet String} (shape : rule.body = .capability ⟨.only names⟩)
    (nonempty : names.toList ≠ []) (solid : ∀ name ∈ names.toList, SolidWord name)
    (stated : rule.base.Stated) (valid : TrailingComment rule.base.comment)
    (later : ∀ start suffix, ',' :: rule.base.comment.toList = start ++ suffix → EndsSolid start →
      commaEnding? suffix = none) : rule.Restored line := by
  obtain ⟨kind, shows, member⟩ := kind_of_capability shape
  have partTidy := tidy_spaced nonempty solid
  have part := spacedPart_of_ne_nil partTidy.ne_nil
  have bodyText : rule.body.text.toList = "capability".toList ++ spacedPart (spaced names.toList).toList := by
    rw [shape, part]
    simp [RuleBody.text, Capability.text, Extent.text]
  have keyworded : rule.Keyworded line :=
    keyworded_of_body shows member bodyText stated valid partTidy.oneLine
  have made : Capability.ofParts (some (spacedPart (spaced names.toList).toList)) = .ok ⟨.only names⟩ := by
    rw [Capability.ofParts, words_spacedPart, wordsOf_spaced solid,
      Capability.ofNames_eq_ok_iff solid, ofList_toList]
    exact ⟨nonempty, rfl⟩
  refine keyworded.recovered_rewritten kind (readAs?.eq_4 _) (keyworded.withModifiers_canonical ?_)
    (Checked.map_eq_ok.mpr ⟨_, made, shape.symm⟩)
  have ends : Capability.endsName false (' ' :: (spaced names.toList).toList) :=
    (Capability.endsName_iff false (by simp)).mpr (partTidy.ends.cons ' ')
  have found := Capability.namesFrom?_append ends (commaEnding?_of_trailingComment valid) later
  have listed : Capability.names? (' ' :: (spaced names.toList).toList ++ ',' :: rule.base.comment.toList) =
      some (' ' :: (spaced names.toList).toList, rule.base.comment) := found
  rw [statementText_of_body shows bodyText, after?_append, bind_some, part, listed]
  rfl

theorem recovered_capability (success : readAs? .capability line = some (.ok rule)) : rule.Restored line := by
  simp only [readAs?, Capability.read?] at success
  obtain ⟨s, parts, suffix, readable, made, stated, _⟩ := readBy_withModifiers_eq_ok success
  obtain ⟨t, behind, readable⟩ := bind_eq_some_iff.mp readable
  obtain ⟨content, made, shape⟩ := Checked.map_eq_ok.mp made
  rcases or_eq_some_iff.mp readable with named | ⟨_, unnamed⟩
  · obtain ⟨⟨names, comment⟩, found, ⟨⟩⟩ := map_eq_some_iff.mp named
    unfold Capability.names? at found
    split at found
    · obtain ⟨rest, split, _, ending, later⟩ := Capability.namesFrom?_eq_some found
      have solid : ∀ name ∈ (words names).map String.ofList, SolidWord name := by
        intro name among
        obtain ⟨chars, inNames, rfl⟩ := mem_map.mp among
        exact solidWord_of_mem_words inNames
      obtain ⟨nonempty, rfl⟩ := (Capability.ofNames_eq_ok_iff solid).mp made
      obtain ⟨name, among⟩ := exists_mem_of_ne_nil _ nonempty
      refine recovered_of_names shape.symm (ne_nil_of_mem (mem_ofList.mpr among))
        (fun name among => solid name (mem_ofList.mp among)) stated
        (trailingComment_of_commaEnding? ending) ?_
      intro start suffix split ends
      exact commaEnding?_of_later ending later split ends
    · cases found
  · obtain ⟨comment, ending, ⟨⟩⟩ := map_eq_some_iff.mp unnamed
    rw [← Except.ok.inj made] at shape
    exact recovered_of_all shape.symm stated (trailingComment_of_commaEnding? ending)

end Rule

end ArmorPolicy
