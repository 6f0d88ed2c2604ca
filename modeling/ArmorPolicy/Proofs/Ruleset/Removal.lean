import ArmorPolicy.Proofs.Rule.Preorder
import ArmorPolicy.Proofs.Ruleset.Dedup

/-!
# What the removal of covered file rules keeps

A removed rule is covered by an included rule, or by a rule that is removed at most once more: what
is kept covers a rule that covers the removed one.  Only patterns do not pass this on, since a path
with wildcards is compared by its text.
-/

namespace ArmorPolicy

/-- Every member is two steps of coverage away from something that is kept.  A step may be idle, as
every member covers itself. -/
theorem exists_chain_irredundant {α : Type} {covers : α → α → Bool} (refl : ∀ a, covers a a)
    {members : List α} {a : α} (member : a ∈ members) :
    ∃ b ∈ members, covers b a ∧ ∃ c ∈ irredundant covers members, covers c b := by
  have orSelf : ∀ {list : List α} {x : α}, x ∈ list → ∃ y ∈ keepUncovered covers list, covers y x := by
    intro list x among
    rcases mem_or_covered_keepUncovered covers among with here | covered
    · exact ⟨x, here, refl x⟩
    · exact covered
  obtain ⟨b, front, covered⟩ := orSelf member
  obtain ⟨c, back, coveredAgain⟩ := orSelf (List.mem_reverse.mpr front)
  exact ⟨b, keepUncovered_subset covers _ front, covered, c, List.mem_reverse.mpr back, coveredAgain⟩

namespace File

/-- The path of a rule covers that of another one, and so does its target where one matters. -/
def patternsCover (file other : File) : Bool :=
  file.path.coversBy Pattern.covers other.path &&
    (!(other.exec.isSome || links other.permissions) || file.target.coversBy Pattern.covers other.target)

theorem patternsCover_of_covers {file other : File} (covered : file.covers other) :
    file.patternsCover other := by
  unfold patternsCover
  by_cases matters : (other.exec.isSome || links other.permissions)
  · rw [(target_of_covers covered matters).1]
    simp only [covers, Bool.and_eq_true] at covered
    simp [covered.1.1.1.1]
  · simp only [covers, Bool.and_eq_true] at covered
    simp [covered.1.1.1.1, matters]

end File

namespace Ruleset

/-- What `included` does not cover is covered, over at most one rule between, by a rule that is
kept. -/
theorem exists_chain_dedup (ruleset : Ruleset) (included : Option Ruleset) {rule : Rule}
    (member : rule ∈ ruleset.rules) :
    (∃ given ∈ included, given.covers rule true true) ∨
      ∃ between ∈ ruleset.rules, between.coversWith true true rule ∧
        ∃ kept ∈ (ruleset.dedup included).1.rules, kept.coversWith true true between := by
  have refl : ∀ rule : Rule, rule.coversWith true true rule := fun rule =>
    rule.coversWith_self true true
  cases included with
  | none =>
    exact .inr (exists_chain_irredundant refl member)
  | some given =>
    by_cases taken : given.covers rule true true
    · exact .inl ⟨given, rfl, taken⟩
    · have remains : rule ∈ ruleset.rules.filter fun rule => !given.covers rule true true := by
        simp [member, taken]
      obtain ⟨between, among, chain⟩ := exists_chain_irredundant refl remains
      exact .inr ⟨between, (List.mem_filter.mp among).1, chain⟩

def ReadFiles (ruleset : Ruleset) : Prop :=
  ∀ rule ∈ ruleset.rules, ∃ line, Rule.parseAs .file line = .ok rule

theorem ReadFiles.exists_file {ruleset : Ruleset} (files : ruleset.ReadFiles) {rule : Rule}
    (member : rule ∈ ruleset.rules) : ∃ file, rule.body = .file file ∧ file.Consistent := by
  obtain ⟨line, success⟩ := files rule member
  have kind := Rule.kind_of_readAs? (Rule.readAs?_of_parseAs success)
  cases body : rule.body with
  | file file => exact ⟨file, rfl, (Rule.Built.read success).file_consistent body⟩
  | _ => simp [Rule.kind, body, RuleBody.kind] at kind

/-- Every file rule, removed or not, is covered by an included rule, or by one that a kept rule covers
in turn.  The kept rule itself covers it exactly if its patterns do: nothing but the comparison of
patterns is lost on the way. -/
theorem exists_kept_file (ruleset : Ruleset) (included : Option Ruleset) (files : ruleset.ReadFiles)
    {rule : Rule} (member : rule ∈ ruleset.rules) :
    (∃ given ∈ included, given.covers rule true true = true) ∨
      ∃ between ∈ ruleset.rules, between.coversWith true true rule = true ∧
        ∃ kept ∈ (ruleset.dedup included).1.rules, kept.coversWith true true between = true ∧
          ∃ keptFile file, kept.body = .file keptFile ∧ rule.body = .file file ∧
            (kept.coversWith true true rule = true ↔ keptFile.patternsCover file = true) := by
  rcases exists_chain_dedup ruleset included member with given | ⟨between, among, covered, kept, remains, covering⟩
  · exact .inl given
  refine .inr ⟨between, among, covered, kept, remains, covering, ?_⟩
  obtain ⟨file, body, _⟩ := files.exists_file member
  obtain ⟨betweenFile, betweenBody, betweenConsistent⟩ := files.exists_file among
  obtain ⟨keptFile, keptBody, keptConsistent⟩ :=
    files.exists_file (dedup_subset ruleset included remains)
  refine ⟨keptFile, file, keptBody, body, ?_⟩
  simp only [Rule.coversWith, body, betweenBody, keptBody, RuleBody.covers?, Option.getD_some,
    Bool.and_eq_true] at covered covering ⊢
  constructor
  · rintro ⟨_, covers⟩
    exact File.patternsCover_of_covers covers
  · intro patterns
    obtain ⟨path, target⟩ := (Bool.and_eq_true_iff).mp patterns
    refine ⟨RuleBase.covers_trans covering.1 covered.1, ?_⟩
    refine File.covers_of_patterns keptConsistent betweenConsistent covering.2 covered.2 path ?_
    intro matters
    rw [matters] at target
    exact target

/-! ## A chain that does not close -/

def readable (glob line : String) : Rule :=
  ⟨{ written := some line }, .file
    { path := .only ⟨glob, none⟩, permissions := .only { read := true }, exec := none
      target := .all, owner := false }⟩

/-- One wildcard, a path that it matches, and a path that matches the wildcard as a text. -/
def wildcards : Ruleset :=
  ⟨[readable "/?" "/? r,", readable "/a" "/a r,", readable "/\\?" "/\\? r,"]⟩

theorem readFiles_wildcards : wildcards.ReadFiles := by
  intro rule member
  simp only [wildcards, List.mem_cons, List.not_mem_nil, or_false] at member
  rcases member with rfl | rfl | rfl
  · exact ⟨"/? r,", by decide +kernel⟩
  · exact ⟨"/a r,", by decide +kernel⟩
  · exact ⟨"/\\? r,", by decide +kernel⟩

/-- The path is removed because of the wildcard, and the wildcard because of its own text, so that
nothing that is left covers the path. -/
theorem dedup_loses_file : wildcards.ReadFiles ∧
    ∃ rule ∈ wildcards.rules, rule ∉ (wildcards.dedup none).1.rules ∧
      (wildcards.dedup none).1.covers rule true true = false := by
  refine ⟨readFiles_wildcards, readable "/a" "/a r,", by simp [wildcards], ?_, ?_⟩
  · decide +kernel
  · decide +kernel

/-- The path is still two steps away from what is left. -/
theorem exists_kept_file_wildcards :
    wildcards.ReadFiles ∧ readable "/a" "/a r," ∈ wildcards.rules ∧
      ∃ between ∈ wildcards.rules, between.coversWith true true (readable "/a" "/a r,") = true ∧
        ∃ kept ∈ (wildcards.dedup none).1.rules, kept.coversWith true true between = true := by
  have member : readable "/a" "/a r," ∈ wildcards.rules := by simp [wildcards]
  refine ⟨readFiles_wildcards, member, ?_⟩
  rcases exists_kept_file wildcards none readFiles_wildcards member with
    ⟨_, impossible, _⟩ | ⟨between, among, covered, kept, remains, covering, _⟩
  · cases impossible
  · exact ⟨between, among, covered, kept, remains, covering⟩

end Ruleset

end ArmorPolicy
