import ArmorPolicy.Proofs.Registry.Admission
import ArmorPolicy.Proofs.Registry.Variables
import ArmorPolicy.Proofs.Ruleset.Dedup

/-!
# Removing covered rules from a preamble

An assignment is removed only when one that stays has the same variable, the same sort and all its
values, over at most one other assignment between them.  So no variable loses a value or its
definition, and merging the variables of files gives what it gave before.
-/

namespace ArmorPolicy

open SortedMap
variable {mode : AssignMode} {values : SortedSet String} {name : String}

/-! ## Assignments that stay -/

theorem Bindings.Unites.of_kept {bindings : Bindings} {given kept : List (String × SortedSet String)}
    (unites : bindings.Unites kept) (subset : kept ⊆ given)
    (rest : ∀ name values, (name, values) ∈ given →
      ∃ more, (name, more) ∈ kept ∧ values.toList ⊆ more.toList) : bindings.Unites given where
  names name := by
    rw [unites.names]
    constructor
    · rintro ⟨values, part⟩
      exact ⟨values, subset part⟩
    · rintro ⟨values, part⟩
      obtain ⟨more, here, _⟩ := rest name values part
      exact ⟨more, here⟩
  values name value := by
    rw [unites.values]
    constructor
    · rintro ⟨values, part, inside⟩
      exact ⟨values, subset part, inside⟩
    · rintro ⟨values, part, inside⟩
      obtain ⟨more, here, all⟩ := rest name values part
      exact ⟨more, here, all inside⟩

theorem Assignment.covers_iff {assignment other : Assignment} :
    assignment.covers other ↔
      assignment.name = other.name ∧ assignment.mode = other.mode ∧
        other.values.toList ⊆ assignment.values.toList := by
  simp [covers, SortedSet.subset, SortedSet.contains, List.subset_def, and_assoc]

theorem Ruleset.mem_assigned_iff {ruleset : Ruleset} :
    (name, values) ∈ ruleset.assigned mode ↔
      ∃ rule ∈ ruleset.rules, rule.body = .assignment ⟨name, mode, values⟩ := by
  simp only [assigned, assignments, List.mem_map, List.mem_filter, List.mem_filterMap,
    decide_eq_true_eq, Prod.mk.injEq]
  constructor
  · rintro ⟨assignment, ⟨⟨rule, member, found⟩, rfl⟩, rfl, rfl⟩
    split at found
    next _ body =>
      cases found
      exact ⟨rule, member, body⟩
    · cases found
  · rintro ⟨rule, member, body⟩
    exact ⟨⟨name, mode, values⟩, ⟨⟨rule, member, by rw [body]⟩, rfl⟩, rfl, rfl⟩

namespace Preamble

/-- Coverage in a preamble, where booleans take no part. -/
def covers (mine theirs : Rule) : Bool :=
  mine.kind != .boolean && mine.coversWith true true theirs

theorem rules_dedup (preamble : Preamble) :
    preamble.dedup.1.ruleset.rules = irredundant covers preamble.ruleset.rules := rfl

theorem exists_assignment_of_covers {rule other : Rule} {assignment : Assignment}
    (covered : covers other rule) (body : rule.body = .assignment assignment) :
    ∃ stronger, other.body = .assignment stronger ∧ stronger.covers assignment := by
  simp only [covers, Rule.coversWith, Bool.and_eq_true] at covered
  cases otherBody : other.body with
  | assignment stronger =>
    refine ⟨stronger, rfl, ?_⟩
    simpa [otherBody, body, RuleBody.covers?] using covered.2.2
  | _ => simp [otherBody, body, RuleBody.covers?] at covered

def AssignsAll (name : String) (mode : AssignMode) (values : SortedSet String) (rule : Rule) : Prop :=
  ∃ more, rule.body = .assignment ⟨name, mode, more⟩ ∧ values.toList ⊆ more.toList

theorem AssignsAll.of_covers {rule other : Rule} (assigns : AssignsAll name mode values rule)
    (covered : covers other rule) : AssignsAll name mode values other := by
  obtain ⟨more, body, all⟩ := assigns
  obtain ⟨⟨_, _, most⟩, otherBody, stronger⟩ := exists_assignment_of_covers covered body
  obtain ⟨rfl, rfl, further⟩ := Assignment.covers_iff.mp stronger
  exact ⟨most, otherBody, fun _ inside => further (all inside)⟩

theorem exists_assigned_dedup {preamble : Preamble}
    (given : (name, values) ∈ preamble.ruleset.assigned mode) :
    ∃ more, (name, more) ∈ preamble.dedup.1.ruleset.assigned mode ∧ values.toList ⊆ more.toList := by
  obtain ⟨rule, member, body⟩ := Ruleset.mem_assigned_iff.mp given
  have assigns : AssignsAll name mode values rule := ⟨values, body, fun _ inside => inside⟩
  obtain ⟨kept, remains, more, keptBody, all⟩ := exists_mem_irredundant covers
    (fun _ _ _ _ covered assigns => AssignsAll.of_covers assigns covered) member assigns
  exact ⟨more, Ruleset.mem_assigned_iff.mpr ⟨kept, remains, keptBody⟩, all⟩

theorem assigned_dedup_subset (preamble : Preamble) (mode : AssignMode) :
    preamble.dedup.1.ruleset.assigned mode ⊆ preamble.ruleset.assigned mode := by
  rintro ⟨name, values⟩ given
  obtain ⟨rule, member, body⟩ := Ruleset.mem_assigned_iff.mp given
  exact Ruleset.mem_assigned_iff.mpr ⟨rule, irredundant_subset covers _ member, body⟩

theorem mergedVariables_dedup (preamble : Preamble) :
    preamble.dedup.1.mergedVariables = preamble.mergedVariables := by
  have same : ∀ mode, preamble.dedup.1.mergedVariables.ofMode mode =
      preamble.mergedVariables.ofMode mode := by
    intro mode
    have kept := (preamble.dedup.1.ruleset.unites_mergedVariables mode).of_kept
      (preamble.assigned_dedup_subset mode) fun _ _ given => exists_assigned_dedup given
    exact kept.unique (preamble.ruleset.unites_mergedVariables mode)
  have defined := same .define
  have added := same .append
  cases after : preamble.dedup.1.mergedVariables
  cases before : preamble.mergedVariables
  simp_all [MergedVariables.ofMode]

theorem dedup_dedup (preamble : Preamble) :
    preamble.dedup.1.dedup.1 = preamble.dedup.1 ∧ preamble.dedup.1.dedup.2.removed = 0 := by
  have same : irredundant covers preamble.dedup.1.ruleset.rules = preamble.dedup.1.ruleset.rules := by
    rw [rules_dedup, irredundant_irredundant]
  constructor
  · change (⟨⟨irredundant covers preamble.dedup.1.ruleset.rules⟩⟩ : Preamble) = _
    rw [same]
  · change 0 + (preamble.dedup.1.ruleset.rules.length -
      (irredundant covers preamble.dedup.1.ruleset.rules).length) = 0
    rw [same]
    omega

end Preamble

/-! ## The registry -/

namespace Registry

variable {registry other : Registry}

theorem mergedVariables_congr
    (same : ∀ name, (other.files.get? name).map (fun file => file.preamble.mergedVariables) =
      (registry.files.get? name).map fun file => file.preamble.mergedVariables)
    (filename : String) (includes : List String) :
    other.mergedVariables filename includes = registry.mergedVariables filename includes := by
  have labelled : ∀ name, (other.files.get? name).map (fun file => (name, file.preamble.mergedVariables)) =
      (registry.files.get? name).map fun file => (name, file.preamble.mergedVariables) := by
    intro name
    simpa [Option.map_map, Function.comp_def] using congrArg (Option.map (Prod.mk name)) (same name)
  have main := same filename
  cases mine : other.files.get? filename with
  | none =>
    have theirs : registry.files.get? filename = none := by
      simpa [mine] using main.symm
    simp only [mergedVariables, listed, mine, theirs, labelled]
  | some file =>
    rw [mine, Option.map_some] at main
    obtain ⟨second, theirs, same⟩ := Option.map_eq_some_iff.mp main.symm
    have sources : other.mergedSources filename file includes =
        registry.mergedSources filename second includes := by
      simp only [mergedSources, labelled, same]
    rw [mergedVariables_eq mine, mergedVariables_eq theirs]
    simp only [mergedParts, sources]

theorem dedupPreamble_eq_ok {filename : String} {file : SourceFile}
    (found : registry.files.get? filename = some file) :
    registry.dedupPreamble filename =
      .ok ({ registry with
        files := registry.files.insert filename { file with preamble := file.preamble.dedup.1 } },
        file.preamble.dedup.2) := by
  have done := Registering.outcome_dedupPreamble_eq_ok.mpr ⟨file, found, rfl, rfl⟩
  rw [dedupPreamble, Registering.after, done]

theorem insert_of_get? {filename : String} {file : SourceFile}
    (found : registry.files.get? filename = some file) : registry.files.insert filename file = registry.files := by
  refine SortedMap.ext_get? fun name => ?_
  rw [get?_insert]
  simp only [beq_iff_eq]
  split
  next same => rw [same, found]
  · rfl

/-- Removing covered rules from the preamble of a registered file succeeds.  Whatever file and includes
are asked for, their variables are merged with the same result or the same error as before, and a
second removal neither changes nor counts anything. -/
theorem mergedVariables_dedupPreamble {filename : String} {file : SourceFile}
    (found : registry.files.get? filename = some file) :
    ∃ after stats, registry.dedupPreamble filename = .ok (after, stats) ∧
      (∀ main includes, after.mergedVariables main includes = registry.mergedVariables main includes) ∧
      ∃ again, after.dedupPreamble filename = .ok (after, again) ∧ again.removed = 0 := by
  have kept : ∀ name, ((registry.files.insert filename
        { file with preamble := file.preamble.dedup.1 }).get? name).map
          (fun file => file.preamble.mergedVariables) =
      (registry.files.get? name).map fun file => file.preamble.mergedVariables := by
    intro name
    rw [get?_insert]
    simp only [beq_iff_eq]
    split
    next same => simp [same, found, Preamble.mergedVariables_dedup]
    next => rfl
  refine ⟨_, _, dedupPreamble_eq_ok found, mergedVariables_congr kept, ?_⟩
  have foundAgain : (registry.files.insert filename
      { file with preamble := file.preamble.dedup.1 }).get? filename =
        some { file with preamble := file.preamble.dedup.1 } := by
    rw [get?_insert]
    simp
  obtain ⟨unchanged, nothing⟩ := file.preamble.dedup_dedup
  refine ⟨_, ?_, nothing⟩
  rw [dedupPreamble_eq_ok foundAgain, unchanged, insert_of_get? foundAgain]

/-- A file that defines one variable and adds values to it three times.  The last addition is covered
from the front, and the first one from the back. -/
def repetitive : SourceFile where
  filename := "main"
  preamble := ⟨⟨[(.define, ["/a"]), (.append, ["/b"]), (.append, ["/b", "/c"]), (.append, ["/c"])].map
    fun (mode, values) => ⟨{}, .assignment { name := "@\x7bx\x7d", mode := mode, values := .ofList values }⟩⟩⟩

theorem mergedVariables_dedupPreamble_repetitive :
    let registry := ((Registering.addFile repetitive).outcome {}).2
    registry.files.get? "main" = some repetitive ∧
      ∃ after stats, registry.dedupPreamble "main" = .ok (after, stats) ∧ stats.removed = 2 ∧
        (∀ main includes,
          after.mergedVariables main includes = registry.mergedVariables main includes) ∧
        ∃ again, after.dedupPreamble "main" = .ok (after, again) ∧ again.removed = 0 := by
  intro registry
  have found : registry.files.get? "main" = some repetitive := by decide +kernel
  obtain ⟨after, stats, done, same, again⟩ := mergedVariables_dedupPreamble found
  refine ⟨found, after, stats, done, ?_, same, again⟩
  rw [dedupPreamble_eq_ok found] at done
  obtain ⟨_, rfl⟩ := Prod.mk.inj (Except.ok.inj done)
  decide +kernel

end Registry

end ArmorPolicy
