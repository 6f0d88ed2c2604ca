import ArmorPolicy.Proofs.Include.Walk
import ArmorPolicy.Proofs.Ruleset.Removal

/-!
# Removing includes keeps the included files

An include is removed when a rule beside it covers it, or a rule of an included file.  The way to that
file may itself start with an include that is removed.  This does not go round in circles, as ranks go
down along every include: the file whose rule covers the include is of higher rank than what the include
names, and so is the file with which the way to it starts.
-/

namespace ArmorPolicy

variable {files : FileSystem} {config : Config} {session : Session} {profileDir path : String}

/-! ## Covered includes -/

theorem Inclusion.fullPaths_subset {inclusion other : Inclusion} (covered : inclusion.covers other) :
    other.fullPaths files profileDir ⊆ inclusion.fullPaths files profileDir := by
  simp only [Inclusion.covers, Bool.and_eq_true, beq_iff_eq] at covered
  obtain ⟨⟨samePath, _⟩, stronger⟩ := covered
  have same : other.fullPath profileDir = inclusion.fullPath profileDir := by
    rw [Inclusion.fullPath, Inclusion.fullPath, samePath]
  intro path among
  rw [Inclusion.fullPaths, same] at among
  rw [Inclusion.fullPaths]
  split at among
  next directory => rwa [if_pos directory]
  next other =>
    rw [if_neg other]
    split at among
    next kept =>
      have keptToo : (files.isPresent (inclusion.fullPath profileDir) || !inclusion.ifExists) := by
        cases missing : inclusion.ifExists <;> simp_all
      rwa [if_pos keptToo]
    · cases among

def Rule.Names (rule : Rule) (files : FileSystem) (profileDir path : String) : Prop :=
  ∃ inclusion, rule.body = .inclusion inclusion ∧ path ∈ inclusion.fullPaths files profileDir

theorem Rule.Names.of_covered {rule other : Rule} (named : other.Names files profileDir path)
    (covered : rule.coversWith true true other) : rule.Names files profileDir path := by
  obtain ⟨inclusion, body, among⟩ := named
  rw [Rule.coversWith, Bool.and_eq_true, body] at covered
  cases mine : rule.body with
  | inclusion covering =>
    rw [mine] at covered
    exact ⟨covering, mine, Inclusion.fullPaths_subset covered.2 among⟩
  | _ =>
    rw [mine] at covered
    cases covered.2

namespace Ruleset

theorem mem_inclusions {ruleset : Ruleset} {inclusion : Inclusion} :
    inclusion ∈ ruleset.inclusions ↔ ∃ rule ∈ ruleset.rules, rule.body = .inclusion inclusion := by
  rw [inclusions, List.mem_filterMap]
  refine exists_congr fun rule => and_congr_right fun _ => ?_
  cases rule.body <;> simp

theorem exists_names_dedup {ruleset : Ruleset} (included : Ruleset) {rule : Rule}
    (member : rule ∈ ruleset.rules) (named : rule.Names files profileDir path) :
    (∃ given ∈ included.rules, given.Names files profileDir path) ∨
      ∃ kept ∈ (ruleset.dedup (some included)).1.rules, kept.Names files profileDir path := by
  rcases exists_chain_dedup ruleset (some included) member with
    ⟨given, isIncluded, taken⟩ | ⟨between, _, covered, kept, remains, covering⟩
  · obtain ⟨given, givenMember, covered⟩ := covers_eq_true_iff.mp taken
    rw [← Option.some.inj isIncluded] at givenMember
    exact .inl ⟨given, givenMember, named.of_covered covered⟩
  · exact .inr ⟨kept, remains, (named.of_covered covered).of_covered covering⟩

end Ruleset

/-! ## Ways between includes -/

namespace Session

open Include

variable {inclusions others : List Inclusion} {rank : List String → Nat}

theorem Meets.of_named
    (named : ∀ inclusion ∈ inclusions, ∀ path ∈ inclusion.fullPaths files session.config.profileDir,
      session.Meets files others path)
    (met : session.Meets files inclusions path) : session.Meets files others path := by
  induction met with
  | stated member among => exact named _ member _ among
  | further _ found member among ih => exact .further ih found member among

theorem Meets.exists_start (resolves : config.resolveIncludes)
    (configured : session.config = config) (ranked : Ranked files config session.memo rank)
    (met : session.Meets files inclusions path) :
    ∃ inclusion ∈ inclusions, ∃ start ∈ inclusion.fullPaths files session.config.profileDir,
      rank (files.includeName path) ≤ rank (files.includeName start) ∧
        ∀ others, session.Meets files others start → session.Meets files others path := by
  induction met with
  | stated member named => exact ⟨_, member, _, named, Nat.le_refl _, fun _ met => met⟩
  | further _ found member named ih =>
    obtain ⟨first, isFirst, start, startNamed, below, way⟩ := ih
    have lower := (lower_of_included resolves ranked found member (configured ▸ named)).2
    exact ⟨first, isFirst, start, startNamed, by omega,
      fun others met => .further (way others met) found member named⟩

/-- What the includes of a ruleset name is still met from those that are kept.  The induction goes from
higher to lower ranks. -/
theorem meets_dedup (resolves : config.resolveIncludes) (sound : session.Sound files config)
    (ruleset : Ruleset) :
    ∀ inclusion ∈ ruleset.inclusions, ∀ path ∈ inclusion.fullPaths files session.config.profileDir,
      session.Meets files
        (ruleset.dedup (some (session.includedRules files ruleset.inclusions))).1.inclusions path := by
  obtain ⟨rank, bound, bounded, ranked⟩ := sound.valid
  intro inclusion member path named
  induction gap : bound - rank (files.includeName path) using Nat.strongRecOn generalizing inclusion path with
  | ind distance ih =>
    obtain ⟨rule, ruleMember, body⟩ := Ruleset.mem_inclusions.mp member
    rcases Ruleset.exists_names_dedup (session.includedRules files ruleset.inclusions) ruleMember
      ⟨inclusion, body, named⟩ with
      ⟨given, givenMember, covering, givenBody, among⟩ | ⟨kept, keptMember, covering, keptBody, among⟩
    · obtain ⟨fragment, reached, givenMember⟩ := List.mem_flatMap.mp givenMember
      obtain ⟨before, met, found⟩ := mem_reached.mp reached
      have states := Ruleset.mem_inclusions.mpr ⟨given, givenMember, givenBody⟩
      have lower := (lower_of_included resolves ranked found states (sound.configured ▸ among)).2
      obtain ⟨first, isFirst, start, startNamed, below, way⟩ :=
        met.exists_start resolves sound.configured ranked
      have beforeBound := bounded (files.includeName start)
      have higher : bound - rank (files.includeName start) < distance := by omega
      exact .further (way _ (ih _ higher first isFirst start startNamed rfl)) found states among
    · exact .stated (Ruleset.mem_inclusions.mpr ⟨kept, keptMember, keptBody⟩) among

/-- Removing what is covered, also by included rules, from any scope keeps the included files; only
their order may change. -/
theorem includedFiles_dedup_perm (reached : session.Reached files config)
    (resolves : config.resolveIncludes = true) (scope : Scope) :
    (session.includedFiles files
      (scope.dedup (some (session.includedRules files scope.rules.inclusions))).1.rules.inclusions).Perm
      (session.includedFiles files scope.rules.inclusions) := by
  have sound := reached.sound
  rw [List.perm_ext_iff_of_nodup (sound.nodup_includedFiles _) (sound.nodup_includedFiles _)]
  intro filename
  rw [mem_includedFiles, mem_includedFiles]
  have less : ∀ inclusion ∈
      (scope.rules.dedup (some (session.includedRules files scope.rules.inclusions))).1.inclusions,
      inclusion ∈ scope.rules.inclusions := by
    intro inclusion member
    obtain ⟨rule, kept, body⟩ := Ruleset.mem_inclusions.mp member
    exact Ruleset.mem_inclusions.mpr ⟨rule, Ruleset.dedup_subset _ _ kept, body⟩
  constructor
  · rintro ⟨path, fragment, met, found, same⟩
    refine ⟨path, fragment, met.of_named ?_, found, same⟩
    exact fun inclusion member path named => .stated (less inclusion member) named
  · rintro ⟨path, fragment, met, found, same⟩
    exact ⟨path, fragment, met.of_named (meets_dedup resolves sound scope.rules), found, same⟩

def descending : FileSystem :=
  ((FileSystem.write {} ["x"] (.file "include \"/y\"\n".toUTF8)).write ["y"]
    (.file "include \"/z\"\n".toUTF8)).write ["z"] (.file "/a r,\n".toUTF8)

/-- Of three includes the last is removed because of the second file, and the second because of the first
one. -/
theorem includedFiles_dedup_perm_descending :
    let content := "/p \x7b\n include \"/x\"\n include \"/y\"\n include \"/z\"\n\x7d\n"
    ∃ file after, (Reading.text descending content "f").outcome {} = (.ok file, after) ∧
      after.Reached descending {} ∧
      ∃ profile ∈ file.profiles,
        let kept := (profile.scope.dedup
          (some (after.includedRules descending profile.scope.rules.inclusions))).1
        profile.scope.rules.inclusions.map Inclusion.path = ["/x", "/y", "/z"] ∧
        kept.rules.inclusions.map Inclusion.path = ["/x"] ∧
        (after.includedFiles descending kept.rules.inclusions).Perm
          (after.includedFiles descending profile.scope.rules.inclusions) := by
  intro content
  have reached : Reached descending {} ((Reading.text descending content "f").outcome {}).2 :=
    .text content "f" .new
  generalize result : (Reading.text descending content "f").outcome {} = outcome at reached
  have checked : (outcome.1.toOption.any fun file => file.profiles.any fun profile =>
      profile.scope.rules.inclusions.map Inclusion.path = ["/x", "/y", "/z"] ∧
      (profile.scope.dedup (some (outcome.2.includedRules descending
        profile.scope.rules.inclusions))).1.rules.inclusions.map Inclusion.path = ["/x"]) = true := by
    rw [← result]
    decide +kernel
  rcases outcome with ⟨_ | file, after⟩
  · cases checked
  · obtain ⟨profile, member, lists⟩ := List.any_eq_true.mp checked
    obtain ⟨before, kept⟩ := of_decide_eq_true lists
    exact ⟨file, after, rfl, reached, profile, member, before, kept,
      includedFiles_dedup_perm reached rfl profile.scope⟩

end Session

end ArmorPolicy
