import ArmorPolicy.Proofs.Profile.Listing
import ArmorPolicy.Proofs.Rule.Dispatch

/-!
# What stands in a canonical listing

A canonical listing has its statements in the order of their texts, denials first.  `canonized` puts
a file into the form that this listing shows: its statements are written canonically and stand in that
order, so that the listing as written has the same content.
-/

namespace ArmorPolicy

open List Text

/-! ## Sorted lines -/

theorem append_lt_append_left_iff (front a b : List Char) : front ++ a < front ++ b ↔ a < b := by
  induction front with
  | nil => rfl
  | cons c front ih => simp [ih]

theorem compare_append_left (front a b : String) : compare (front ++ a) (front ++ b) = compare a b := by
  have less : front ++ a < front ++ b ↔ a < b := by
    simp only [String.lt_iff, String.toList_append, append_lt_append_left_iff]
  have equal : front ++ a = front ++ b ↔ a = b := by
    simp only [← String.toList_inj, String.toList_append, append_cancel_left_eq]
  change compareOfLessAndEq (front ++ a) (front ++ b) = compareOfLessAndEq a b
  simp only [compareOfLessAndEq, less, equal]

theorem pairwise_mergeSort_text {α : Type} (text : α → String) (members : List α) :
    (members.mergeSort fun a b => (compare (text a) (text b)).isLE).Pairwise
      fun a b => (compare (text a) (text b)).isLE := by
  refine pairwise_mergeSort ?_ ?_ members
  · exact fun a b c first second => Std.TransOrd.isLE_trans first second
  · intro a b
    rw [Std.OrientedOrd.eq_swap (a := text b)]
    cases compare (text a) (text b) <;> rfl

namespace Ruleset

theorem sortLines_eq_of_perm {lines others : List String} (same : lines.Perm others) :
    sortLines lines = sortLines others := by
  refine List.Perm.eq_of_pairwise ?_ (pairwise_mergeSort_text id lines) (pairwise_mergeSort_text id others) ?_
  · intro a b _ _ first second
    exact Std.LawfulEqOrd.eq_of_compare (Std.OrientedCmp.isLE_antisymm first second)
  · exact (mergeSort_perm lines _).trans (same.trans (mergeSort_perm others _).symm)

theorem sortLines_indented (depth : Nat) (lines : List String) :
    sortLines (lines.map (indent depth ++ ·)) = (sortLines lines).map (indent depth ++ ·) := by
  refine (map_mergeSort ?_).symm
  intro a _ b _
  rw [compare_append_left]

/-! ## Rules -/

/-- The denials, or the other rules, in the order of their canonical lines. -/
def ordered (ruleset : Ruleset) (deny : Bool) : List Rule :=
  (ruleset.rules.filter fun rule => rule.base.deny == deny).mergeSort
    fun a b => (compare a.canonical b.canonical).isLE

def canonized (ruleset : Ruleset) : Ruleset :=
  ⟨(ruleset.ordered true ++ ruleset.ordered false).map Rule.rewritten⟩

variable {ruleset : Ruleset}

theorem canonized_perm (ruleset : Ruleset) :
    ruleset.canonized.rules.Perm (ruleset.rules.map Rule.rewritten) := by
  refine List.Perm.map _ (((mergeSort_perm _ _).append (mergeSort_perm _ _)).trans ?_)
  have others : (fun rule : Rule => rule.base.deny == false) = fun rule => !(rule.base.deny == true) := by
    funext rule
    cases rule.base.deny <;> rfl
  rw [others]
  exact filter_append_perm _ ruleset.rules

theorem mem_canonized {rule : Rule} :
    rule ∈ ruleset.canonized.rules ↔ ∃ original ∈ ruleset.rules, original.rewritten = rule := by
  rw [ruleset.canonized_perm.mem_iff, mem_map]

theorem cleanLines_eq_of_perm {others : Ruleset}
    (same : others.rules.Perm (ruleset.rules.map Rule.rewritten)) (depth : Nat) :
    others.cleanLines depth = ruleset.cleanLines depth := by
  have group : ∀ deny : Bool,
      sortLines ((others.rules.filter fun rule => rule.base.deny == deny).map fun rule => rule.clean depth) =
        sortLines ((ruleset.rules.filter fun rule => rule.base.deny == deny).map
          fun rule => rule.clean depth) := by
    intro deny
    apply sortLines_eq_of_perm
    have filtered := (same.filter fun rule => rule.base.deny == deny).map fun rule => rule.clean depth
    rw [filter_map, map_map] at filtered
    exact filtered
  simp only [cleanLines, group]

theorem ofKind_canonized (kind : RuleKind) :
    (ruleset.canonized.ofKind kind).rules =
      (((ruleset.ordered true).filter fun rule => rule.kind == kind) ++
        (ruleset.ordered false).filter fun rule => rule.kind == kind).map Rule.rewritten := by
  rw [ofKind, canonized, filter_map, ← filter_append]
  rfl

theorem ofKind_canonized_perm (kind : RuleKind) :
    (ruleset.canonized.ofKind kind).rules.Perm ((ruleset.ofKind kind).rules.map Rule.rewritten) := by
  have filtered := ruleset.canonized_perm.filter fun rule => rule.kind == kind
  rw [filter_map] at filtered
  exact filtered

theorem sections_canonized (order : List RuleKind) (ruleset : Ruleset) (depth : Nat) :
    ruleset.canonized.sections order .canonical depth = ruleset.sections order .canonical depth := by
  unfold sections
  congr 1
  funext kind
  exact cleanLines_eq_of_perm (ofKind_canonized_perm kind) depth

theorem listed_cleanLines {depth : Nat} (tidy : ∀ rule ∈ ruleset.rules, Tidy rule.canonical.toList) :
    listed (ruleset.cleanLines depth) =
      (sortLines ((ruleset.rules.filter fun rule => rule.base.deny == true).map Rule.canonical) ++
        sortLines ((ruleset.rules.filter fun rule => rule.base.deny == false).map Rule.canonical)).map
          String.toList := by
  have group : ∀ deny : Bool,
      listed (closeGroup (sortLines ((ruleset.rules.filter fun rule => rule.base.deny == deny).map
          fun rule => rule.clean depth))) =
        (sortLines ((ruleset.rules.filter fun rule => rule.base.deny == deny).map Rule.canonical)).map
          String.toList := by
    intro deny
    have shape : ((ruleset.rules.filter fun rule => rule.base.deny == deny).map
        fun rule => rule.clean depth) =
          ((ruleset.rules.filter fun rule => rule.base.deny == deny).map Rule.canonical).map
            (indent depth ++ ·) := by
      simp [Rule.clean]
    rw [listed_closeGroup, shape, sortLines_indented]
    apply listed_indented
    intro line member
    rw [sortLines, mem_mergeSort, mem_map] at member
    obtain ⟨rule, among, rfl⟩ := member
    exact tidy rule (mem_filter.mp among).1
  rw [map_append, ← group, ← group, ← listed_append]
  rfl

theorem map_canonical_ordered (kind : RuleKind) (deny : Bool) :
    ((ruleset.ordered deny).filter fun rule => rule.kind == kind).map Rule.canonical =
      sortLines (((ruleset.ofKind kind).rules.filter fun rule => rule.base.deny == deny).map
        Rule.canonical) := by
  have sorted : (((ruleset.ordered deny).filter fun rule => rule.kind == kind).map
      Rule.canonical).Pairwise fun a b => (compare a b).isLE := by
    rw [pairwise_map]
    exact (pairwise_mergeSort_text Rule.canonical _).filter _
  have same : ((ruleset.ordered deny).filter fun rule => rule.kind == kind).Perm
      ((ruleset.ofKind kind).rules.filter fun rule => rule.base.deny == deny) := by
    have perm := (mergeSort_perm (ruleset.rules.filter fun rule => rule.base.deny == deny)
      fun a b => (compare a.canonical b.canonical).isLE).filter fun rule => rule.kind == kind
    simpa only [ordered, ofKind, filter_filter, Bool.and_comm] using perm
  rw [← sortLines_eq_of_perm (same.map Rule.canonical)]
  exact (mergeSort_of_pairwise sorted).symm

theorem listed_sections_canonical {order : List RuleKind} {depth : Nat}
    (tidy : ∀ rule ∈ ruleset.rules, Tidy rule.canonical.toList) :
    listed (ruleset.sections order .canonical depth) =
      (ruleset.canonized.grouped order).rules.map Rule.writtenLine := by
  rw [sections, listed_flatMap, grouped, map_flatMap]
  congr 1
  funext kind
  have written : Rule.writtenLine ∘ Rule.rewritten = String.toList ∘ Rule.canonical := rfl
  have shown : (ruleset.canonized.ofKind kind).rules.map Rule.writtenLine =
      (((ruleset.ordered true).filter fun rule => rule.kind == kind).map Rule.canonical ++
        ((ruleset.ordered false).filter fun rule => rule.kind == kind).map Rule.canonical).map
          String.toList := by
    rw [ofKind_canonized, map_map, written, ← map_map, map_append]
  rw [shown, map_canonical_ordered, map_canonical_ordered]
  exact listed_cleanLines fun rule member => tidy rule (mem_ofKind.mp member).1

end Ruleset

/-! ## Files -/

def Scope.canonized (scope : Scope) : Scope := { scope with rules := scope.rules.canonized }

theorem Scope.keepsLines_canonized : KeepsLines .canonical canonized :=
  ⟨fun _ => rfl, fun _ _ _ => rfl, fun scope depth =>
    Ruleset.sections_canonized Ruleset.scopeOrder scope.rules depth⟩

theorem Scope.tidyLines_canonized {scope : Scope}
    (comments : ∀ comment ∈ scope.initialComment, Tidy comment.toList)
    (header : Tidy (scope.header 0).toList)
    (rules : ∀ rule ∈ scope.rules.rules, Tidy rule.canonical.toList) :
    scope.canonized.TidyLines .canonical := by
  refine ⟨comments, header, fun depth => ?_⟩
  rw [keepsLines_canonized.rules]
  exact Ruleset.listed_sections_canonical rules

namespace ParsedFile

def canonized (file : ParsedFile) : ParsedFile :=
  { file with
    preamble := ⟨file.preamble.ruleset.canonized⟩
    profiles := file.profiles.map (Profile.mapScopes Scope.canonized) }

theorem lines_canonized (file : ParsedFile) : file.canonized.lines .canonical = file.lines .canonical := by
  have preamble : file.canonized.preamble.lines .canonical 0 = file.preamble.lines .canonical 0 :=
    Ruleset.sections_canonized Preamble.order file.preamble.ruleset 0
  have profiles : file.canonized.profiles.map (fun profile => profile.lines .canonical 0) =
      file.profiles.map fun profile => profile.lines .canonical 0 := by
    simp [canonized, Function.comp_def, Profile.lines_mapScopes Scope.keepsLines_canonized]
  rw [lines, lines, preamble, profiles]

end ParsedFile

end ArmorPolicy
