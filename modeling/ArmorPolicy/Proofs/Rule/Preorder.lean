import ArmorPolicy.Proofs.Rule.Coverage

/-!
# Coverage as a preorder

Every rule covers itself, whatever its patterns are.  Among rules with the patterns of logged events
coverage also goes on, so that it is a preorder there, for each choice of what is asked of decisions
and audits.
-/

namespace ArmorPolicy

/-! ## Every field covers itself -/

namespace Extent

variable {α : Type}

theorem coversBy_self {covers : α → α → Bool} (refl : ∀ a, covers a a) (field : Extent α) :
    field.coversBy covers field := by
  cases field with
  | all => rfl
  | only a => exact refl a

end Extent

theorem Pattern.covers_self (pattern : Pattern) : pattern.covers pattern := by
  simp [covers]

theorem all_contains_self {α : Type} [BEq α] [LawfulBEq α] (members : List α) :
    members.all members.contains := by
  simp

theorem Access.covers_self (implied : String → List String) (access : Access) :
    access.covers implied access :=
  Extent.coversBy_self (fun _ => all_contains_self _) access

theorem FilePermissions.covers_self (permissions : FilePermissions) : permissions.covers permissions :=
  covers_iff.mpr fun _ held => .inl held

theorem Rlimit.limitCovers_self (limit : LimitValue) : limitCovers limit limit := by
  cases limit <;> simp [limitCovers]

theorem RuleBase.covers_self (base : RuleBase) (checkDecision checkAudit : Bool) :
    base.covers base checkDecision checkAudit := by
  simp [covers]

/-! ## Every rule covers itself -/

theorem File.covers_self (file : File) : file.covers file := by
  have path := Extent.coversBy_self Pattern.covers_self file.path
  have target := Extent.coversBy_self Pattern.covers_self file.target
  have permissions := Extent.coversBy_self FilePermissions.covers_self file.permissions
  simp [covers, targetCovers, path, target, permissions]

theorem RuleBody.covers_self (body : RuleBody) : body.Covers body := by
  have pattern : ∀ field : Extent Pattern, field.coversBy Pattern.covers field :=
    Extent.coversBy_self Pattern.covers_self
  have members : ∀ field : Extent (SortedSet String),
      field.coversBy (fun mine theirs => theirs.subset mine) field :=
    Extent.coversBy_self fun set => all_contains_self set.toList
  have word : ∀ field : Extent String, field.coversBy (· == ·) field :=
    Extent.coversBy_self fun text => beq_self_eq_true text
  cases body with
  | capability content => exact members content.names
  | changeProfile content => simp [Covers, covers?, ChangeProfile.covers, pattern]
  | dbus content => simp [Covers, covers?, Dbus.covers, pattern, word, Access.covers_self]
  | file content => exact content.covers_self
  | inclusion content => simp [Covers, covers?, Inclusion.covers]
  | network content => simp [Covers, covers?, Network.covers, word]
  | ptrace content => simp [Covers, covers?, Ptrace.covers, pattern, Access.covers_self]
  | rlimit content => simp [Covers, covers?, Rlimit.covers, Rlimit.limitCovers_self]
  | signal content => simp [Covers, covers?, Signal.covers, pattern, members, Access.covers_self]
  | userns content => exact members content.access
  | assignment content =>
    simp [Covers, covers?, Assignment.covers, SortedSet.subset, SortedSet.contains]
  | _ => simp [Covers, covers?]

theorem Rule.coversWith_self (rule : Rule) (checkDecision checkAudit : Bool) :
    rule.coversWith checkDecision checkAudit rule := by
  rw [coversWith, rule.base.covers_self, Bool.true_and]
  exact rule.body.covers_self

/-! ## Coverage goes on -/

theorem RuleBase.covers_iff {mine theirs : RuleBase} {checkDecision checkAudit : Bool} :
    mine.covers theirs checkDecision checkAudit ↔
      ((checkDecision → mine.deny = theirs.deny) ∧ (theirs.deny → mine.deny)) ∧
        (checkAudit → mine.audit = theirs.audit) ∧ (theirs.audit → mine.audit) := by
  simp only [covers, Bool.and_eq_true, Bool.not_eq_true', Bool.and_eq_false_imp, bne_eq_false_iff_eq,
    Bool.not_eq_false', and_assoc]

theorem RuleBase.covers_trans_same {mine theirs third : RuleBase} {checkDecision checkAudit : Bool}
    (first : mine.covers theirs checkDecision checkAudit)
    (second : theirs.covers third checkDecision checkAudit) :
    mine.covers third checkDecision checkAudit := by
  rw [covers_iff] at first second ⊢
  obtain ⟨⟨sameDecision, denies⟩, sameAudit, audits⟩ := first
  obtain ⟨⟨sameDecision', denies'⟩, sameAudit', audits'⟩ := second
  refine ⟨⟨fun check => ?_, fun denied => denies (denies' denied)⟩, fun check => ?_,
    fun audited => audits (audits' audited)⟩
  · exact (sameDecision check).trans (sameDecision' check)
  · exact (sameAudit check).trans (sameAudit' check)

/-- Coverage is a preorder on the rules that can be made and have the patterns of logged events
only. -/
theorem Rule.coversWith_preorder (checkDecision checkAudit : Bool) :
    (∀ rule : Rule, rule.coversWith checkDecision checkAudit rule = true) ∧
      ∀ rule other third : Rule, rule.Built ∧ rule.OfEvents → other.Built ∧ other.OfEvents →
        third.Built ∧ third.OfEvents → rule.coversWith checkDecision checkAudit other = true →
        other.coversWith checkDecision checkAudit third = true →
        rule.coversWith checkDecision checkAudit third = true := by
  refine ⟨fun rule => rule.coversWith_self checkDecision checkAudit, ?_⟩
  rintro rule other third ⟨built, events⟩ ⟨otherBuilt, otherEvents⟩ - first second
  simp only [coversWith, Bool.and_eq_true] at first second ⊢
  refine ⟨RuleBase.covers_trans_same first.1 second.1, ?_⟩
  exact RuleBody.Covers.trans events otherEvents (fun _ => built.file_consistent)
    (fun _ => otherBuilt.file_consistent) first.2 second.2

/-- Writing covers appending, and appending by anyone covers appending by the owner. -/
theorem Rule.coversWith_preorder_append :
    let logged (permissions : FilePermissions) (owner : Bool) : File :=
      { path := .only ⟨"/x", some "/x"⟩, permissions := .only permissions, exec := none
        target := .all, owner }
    let rule (file : File) : Rule := ⟨{ origin := .logEvent }, .file file⟩
    let writes := rule (logged { write := true } false)
    let appends := rule (logged { append := true } false)
    let owned := rule (logged { append := true } true)
    (∀ rule ∈ [writes, appends, owned], rule.Built ∧ rule.OfEvents) ∧
      writes.coversWith true false appends = true ∧ appends.coversWith true false owned = true ∧
      writes.coversWith true false owned = true := by
  intro logged rule writes appends owned
  have writesMade : File.ofLogEvent "/x" "w" false = .ok (logged { write := true } false) := by decide +kernel
  have appendsMade : File.ofLogEvent "/x" "a" false = .ok (logged { append := true } false) := by decide +kernel
  have ownedMade : File.ofLogEvent "/x" "a" true = .ok (logged { append := true } true) := by decide +kernel
  have path : Extent.OfEvent (.only ⟨"/x", some "/x"⟩) := by
    intro pattern same
    rw [← Extent.only.inj same]
    exact ⟨"/x", true, rfl⟩
  have events : ∀ permissions owner, (rule (logged permissions owner)).OfEvents := by
    intro permissions owner field member
    simp only [rule, logged, RuleBody.patterns, List.mem_cons, List.not_mem_nil, or_false] at member
    rcases member with rfl | rfl
    · exact path
    · exact fun _ impossible => by cases impossible
  have first : writes.Built ∧ writes.OfEvents := ⟨.loggedFile writesMade, events _ _⟩
  have second : appends.Built ∧ appends.OfEvents := ⟨.loggedFile appendsMade, events _ _⟩
  have third : owned.Built ∧ owned.OfEvents := ⟨.loggedFile ownedMade, events _ _⟩
  have covering : writes.coversWith true false appends = true := rfl
  have covered : appends.coversWith true false owned = true := rfl
  refine ⟨by simp [first, second, third], covering, covered, ?_⟩
  exact (coversWith_preorder true false).2 writes appends owned first second third covering covered

end ArmorPolicy
