import ArmorPolicy.Proofs.Profile.Canonical
import Mathlib.Data.List.Perm.Basic

/-!
# The arrangement of canonical listings

The canonical listing of a scope consists of groups of lines: one for the denials and one for the other
rules of each kind, each sorted and with an empty line behind it.  It has every rule, as often as it was
added, and depends on nothing else, so that it does not matter in which order rules are added.
-/

namespace ArmorPolicy

open List Text

/-- The group to which a rule belongs: its kind, and whether it is a denial. -/
def Rule.group (rule : Rule) : RuleKind × Bool := (rule.kind, rule.base.deny)

theorem flatMap_filter_perm {α κ : Type} [BEq κ] [LawfulBEq κ] (key : α → κ) {keys : List κ}
    (distinct : keys.Nodup) {members : List α} (known : ∀ a ∈ members, key a ∈ keys) :
    (keys.flatMap fun k => members.filter fun a => key a == k).Perm members := by
  induction keys generalizing members with
  | nil =>
    have nothing : members = [] := eq_nil_iff_forall_not_mem.mpr fun a member => not_mem_nil (known a member)
    rw [nothing]
    rfl
  | cons k keys ih =>
    obtain ⟨fresh, distinct⟩ := nodup_cons.mp distinct
    let others := members.filter fun a => !(key a == k)
    have rest : (keys.flatMap fun other => members.filter fun a => key a == other) =
        keys.flatMap fun other => others.filter fun a => key a == other := by
      refine flatMap_congr fun other among => ?_
      rw [filter_filter]
      refine filter_congr fun a _ => ?_
      by_cases same : key a = other
      · subst same
        have differs : key a ≠ k := fun first => fresh (first ▸ among)
        simp [differs]
      · simp [same]
    have behind : ∀ a ∈ others, key a ∈ keys := by
      intro a member
      obtain ⟨among, differs⟩ := mem_filter.mp member
      exact (mem_cons.mp (known a among)).resolve_left (by simpa using differs)
    rw [flatMap_cons, rest]
    exact ((ih distinct behind).append_left _).trans (filter_append_perm _ members)

namespace Ruleset

/-! ## Adding rules -/

theorem foldlM_addInside_eq_ok_iff {rules : List Rule} {start result : Ruleset} :
    rules.foldlM addInside start = .ok result ↔
      (∀ rule ∈ rules, rule.kind ∈ scopeOrder) ∧ result = ⟨start.rules ++ rules⟩ := by
  induction rules generalizing start with
  | nil =>
    rw [foldlM_nil, append_nil]
    constructor
    · intro same
      exact ⟨forall_mem_nil _, (Except.ok.inj same).symm⟩
    · rintro ⟨_, rfl⟩
      rfl
  | cons rule rules ih =>
    rw [foldlM_cons, forall_mem_cons]
    unfold addInside
    by_cases inside : rule.kind ∈ scopeOrder
    · rw [if_pos (contains_iff_mem.mpr inside)]
      change rules.foldlM addInside (start.add rule) = _ ↔ _
      rw [ih, add, append_assoc]
      simp [inside]
    · rw [if_neg (mt contains_iff_mem.mp inside)]
      exact ⟨nofun, fun ⟨⟨among, _⟩, _⟩ => absurd among inside⟩

/-! ## Groups -/

def groupOrder : List (RuleKind × Bool) := scopeOrder.flatMap fun kind => [(kind, true), (kind, false)]

theorem nodup_groupOrder : groupOrder.Nodup := by decide

theorem group_mem_groupOrder {rule : Rule} (inside : rule.kind ∈ scopeOrder) : rule.group ∈ groupOrder := by
  refine mem_flatMap.mpr ⟨rule.kind, inside, ?_⟩
  rw [Rule.group]
  cases rule.base.deny <;> simp

def groupLines (rules : List Rule) (depth : Nat) (group : RuleKind × Bool) : List String :=
  sortLines ((rules.filter fun rule => rule.group == group).map fun rule => rule.clean depth)

theorem scopeLines_eq (rules : List Rule) (depth : Nat) :
    scopeLines .canonical ⟨rules⟩ depth =
      groupOrder.flatMap fun group => closeGroup (groupLines rules depth group) := by
  have group : ∀ kind deny, ((ofKind ⟨rules⟩ kind).rules.filter fun rule => rule.base.deny == deny) =
      rules.filter fun rule => rule.group == (kind, deny) := by
    intro kind deny
    rw [ofKind, filter_filter]
    exact filter_congr fun rule _ => Bool.and_comm ..
  rw [scopeLines, sections, groupOrder, flatMap_assoc]
  refine flatMap_congr fun kind _ => ?_
  simp only [lines, cleanLines, group, groupLines, flatMap_cons, flatMap_nil, append_nil]

theorem flatMap_closeGroup {κ : Type} (lines : κ → List String) (keys : List κ) :
    (keys.flatMap fun k => closeGroup (lines k)) =
      (keys.filter fun k => !(lines k).isEmpty).flatMap fun k => lines k ++ [""] := by
  induction keys with
  | nil => rfl
  | cons k keys ih =>
    rw [flatMap_cons, ih, filter_cons, closeGroup]
    cases (lines k).isEmpty <;> simp

/-- The lines of the rules of one group, of which there are some, in the order of their characters. -/
structure Sorts (rules : List Rule) (depth : Nat) (group : RuleKind × Bool) (lines : List String) : Prop where
  some : lines ≠ []
  sorted : lines.Pairwise fun a b => (compare a b).isLE = true
  whole : lines.Perm ((rules.filter fun rule => rule.group == group).map fun rule => rule.clean depth)

theorem sorts_groupLines {rules : List Rule} {depth : Nat} {group : RuleKind × Bool}
    (some : groupLines rules depth group ≠ []) : Sorts rules depth group (groupLines rules depth group) where
  some := some
  sorted := pairwise_mergeSort_text id _
  whole := mergeSort_perm _ _

/-! ## What is listed -/

theorem any_solid_clean {rule : Rule} (inside : rule.kind ∈ scopeOrder) (depth : Nat) :
    (rule.clean depth).toList.any isSolid := by
  have shape : ∀ kind ∈ scopeOrder, kind = .inclusion ∨ kind.terminator = "," := by decide
  have stated : ∃ c ∈ rule.canonical.toList, isSolid c := by
    rcases shape rule.kind inside with inclusion | comma
    · obtain ⟨base, body⟩ := rule
      cases body <;> cases inclusion
      case inl.inclusion.refl inclusion =>
        refine ⟨'i', ?_, by decide⟩
        simp only [Rule.canonical, RuleBody.text, Inclusion.text]
        cases inclusion.ifExists <;> simp
    · refine ⟨',', ?_, by decide⟩
      simp [Rule.canonical, comma]
  obtain ⟨c, member, solid⟩ := stated
  rw [any_eq_true]
  exact ⟨c, by simp [Rule.clean, member], solid⟩

theorem filter_closeGroup {lines : List String} (solid : ∀ line ∈ lines, line.toList.any isSolid) :
    ((closeGroup lines).filter fun line => line.toList.any isSolid) = lines := by
  unfold closeGroup
  split
  next empty =>
    rw [isEmpty_iff.mp empty]
    rfl
  · rw [filter_append, filter_eq_self.mpr solid]
    exact append_nil _

variable {rules : List Rule}

section Inside

variable (inside : ∀ rule ∈ rules, rule.kind ∈ scopeOrder)
include inside

theorem exists_groups (depth : Nat) :
    ∃ groups : List ((RuleKind × Bool) × List String),
      scopeLines .canonical ⟨rules⟩ depth = groups.flatMap (fun group => group.2 ++ [""]) ∧
      (groups.map Prod.fst).Sublist groupOrder ∧ (∀ group ∈ groups, Sorts rules depth group.1 group.2) ∧
      ∀ rule ∈ rules, rule.group ∈ groups.map Prod.fst := by
  let shown := groupOrder.filter fun group => !(groupLines rules depth group).isEmpty
  have keys : (shown.map fun group => (group, groupLines rules depth group)).map Prod.fst = shown := by
    simp [Function.comp_def]
  refine ⟨shown.map fun group => (group, groupLines rules depth group), ?_, ?_, ?_, ?_⟩
  · rw [scopeLines_eq, flatMap_closeGroup, flatMap_map]
  · rw [keys]
    exact filter_sublist
  · intro group member
    obtain ⟨key, among, rfl⟩ := mem_map.mp member
    exact sorts_groupLines (by simpa using (mem_filter.mp among).2)
  · intro rule member
    rw [keys]
    have line : rule.clean depth ∈ groupLines rules depth rule.group := by
      rw [groupLines, sortLines, mem_mergeSort]
      exact mem_map_of_mem (mem_filter.mpr ⟨member, beq_self_eq_true _⟩)
    refine mem_filter.mpr ⟨group_mem_groupOrder (inside rule member), ?_⟩
    simpa using ne_nil_of_mem line

theorem filter_scopeLines_perm (depth : Nat) :
    ((scopeLines .canonical ⟨rules⟩ depth).filter fun line => line.toList.any isSolid).Perm
      (rules.map fun rule => rule.clean depth) := by
  have solid : ∀ group, ∀ line ∈ groupLines rules depth group, line.toList.any isSolid := by
    intro group line member
    rw [groupLines, sortLines, mem_mergeSort] at member
    obtain ⟨rule, among, rfl⟩ := mem_map.mp member
    exact any_solid_clean (inside rule (mem_filter.mp among).1) depth
  have whole : (groupOrder.flatMap fun group => groupLines rules depth group).Perm
      ((groupOrder.flatMap fun group => rules.filter fun rule => rule.group == group).map
        fun rule => rule.clean depth) := by
    rw [map_flatMap]
    exact List.Perm.flatMap_left _ fun group _ => mergeSort_perm _ _
  rw [scopeLines_eq, filter_flatMap]
  simp only [filter_closeGroup (solid _)]
  exact whole.trans ((flatMap_filter_perm Rule.group nodup_groupOrder fun rule member =>
    group_mem_groupOrder (inside rule member)).map _)

end Inside

theorem scopeLines_eq_of_perm {others : List Rule} (order : others.Perm rules) (depth : Nat) :
    scopeLines .canonical ⟨others⟩ depth = scopeLines .canonical ⟨rules⟩ depth := by
  have group : groupLines others depth = groupLines rules depth := by
    funext group
    exact sortLines_eq_of_perm ((order.filter _).map _)
  rw [scopeLines_eq, scopeLines_eq, group]

/-- A canonical listing consists of the groups of rules in their fixed order, each sorted, with some line in
it and one empty line behind it; what is not blank in it are the lines of the rules.  Rules that are added
in another order are listed in the same way. -/
theorem scopeLines_arranged {ruleset : Ruleset} (added : rules.foldlM addInside {} = .ok ruleset)
    (depth : Nat) :
    (∃ groups : List ((RuleKind × Bool) × List String),
      ruleset.scopeLines .canonical depth = groups.flatMap (fun group => group.2 ++ [""]) ∧
      (groups.map Prod.fst).Sublist groupOrder ∧ (∀ group ∈ groups, Sorts rules depth group.1 group.2) ∧
      ∀ rule ∈ rules, rule.group ∈ groups.map Prod.fst) ∧
    ((ruleset.scopeLines .canonical depth).filter fun line => line.toList.any isSolid).Perm
      (rules.map fun rule => rule.clean depth) ∧ ∀ others : List Rule, others.Perm rules →
      ∃ again, others.foldlM addInside {} = .ok again ∧
        again.scopeLines .canonical depth = ruleset.scopeLines .canonical depth := by
  obtain ⟨inside, rfl⟩ := foldlM_addInside_eq_ok_iff.mp added
  refine ⟨exists_groups inside depth, filter_scopeLines_perm inside depth, fun others order => ?_⟩
  refine ⟨⟨others⟩, foldlM_addInside_eq_ok_iff.mpr ⟨fun rule member => ?_, rfl⟩, ?_⟩
  · exact inside rule (order.mem_iff.mp member)
  · exact scopeLines_eq_of_perm order depth

/-- Two rules with one text, a denial, and a rule of another kind, added in two orders. -/
theorem scopeLines_arranged_twice :
    let file : File :=
      { path := .only ⟨"/b", none⟩, permissions := .only { read := true }, exec := none, target := .all
        owner := false }
    let reading : Rule := ⟨{}, .file file⟩
    let denied : Rule := ⟨{ deny := true }, .file { file with owner := true }⟩
    let network : Rule := ⟨{}, .network ⟨.all, .all⟩⟩
    let lines := ["  network,", "", "  deny owner /b r,", "", "  /b r,", "  /b r,", ""]
    ∃ ruleset again : Ruleset,
      [reading, denied, network, reading].foldlM addInside {} = .ok ruleset ∧
      [network, reading, reading, denied].foldlM addInside {} = .ok again ∧
      ruleset.scopeLines .canonical 1 = lines ∧ again.scopeLines .canonical 1 = lines := by
  intro file reading denied network lines
  have added : [reading, denied, network, reading].foldlM addInside {} =
      .ok ⟨[reading, denied, network, reading]⟩ := rfl
  have listed : scopeLines .canonical ⟨[reading, denied, network, reading]⟩ 1 = lines := by
    have sorted : ∀ group ∈ groupOrder, closeGroup (groupLines [reading, denied, network, reading] 1 group) =
        closeGroup (([reading, denied, network, reading].filter fun rule => rule.group == group).map
          fun rule => rule.clean 1) := by
      intro group among
      refine congrArg closeGroup (List.mergeSort_of_pairwise ?_)
      revert group
      decide +kernel
    rw [scopeLines_eq, List.flatMap_congr sorted]
    decide +kernel
  obtain ⟨_, _, reordered⟩ := scopeLines_arranged added 1
  obtain ⟨again, readded, same⟩ := reordered [network, reading, reading, denied] (by decide +kernel)
  exact ⟨_, again, added, readded, listed, same.trans listed⟩

end Ruleset

end ArmorPolicy
