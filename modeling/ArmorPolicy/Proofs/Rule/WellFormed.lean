import ArmorPolicy.Proofs.Rule.Change
import ArmorPolicy.Proofs.Rule.Dispatch
import ArmorPolicy.Proofs.Rule.FileAccess

/-!
# Rules as their makers want them

The makers of rules ask that the fields of a file rule fit together, that its mode fits its decision, and
that some kinds of rules have no modifiers.  Changing a rule keeps its fields together, but the calls that
set modifiers do not look at the body: they can leave a mode that the decision excludes, and modifiers
where there must not be any.
-/

namespace ArmorPolicy

open Line

variable {deny : Bool} {file : File} {rule : Rule}

/-! ## What makers ask for -/

/-- A target goes with a mode or with the permission to link. -/
def File.Targeted (file : File) : Prop :=
  file.target.isAll = false → file.exec ≠ none ∨ File.links file.permissions = true

def RuleBase.Plain (base : RuleBase) : Prop := base.audit = false ∧ base.decision = .unstated

instance (base : RuleBase) : Decidable base.Plain := inferInstanceAs (Decidable (_ ∧ _))

structure Rule.WellFormed (rule : Rule) : Prop where
  consistent : ∀ file, rule.body = .file file → file.Consistent
  targeted : ∀ file, rule.body = .file file → file.Targeted
  /-- Under a denial the only mode is `x`, and elsewhere there is no such mode. -/
  mode : ∀ file, rule.body = .file file → FileAccess.ModeFits rule.base.deny file.exec
  plain : rule.kind.showsModifiers = false → rule.base.Plain

namespace File

theorem modeFits_of_execOf {name : Option String} {exec : Option ExecMode}
    (made : execOf deny name = .ok exec) : FileAccess.ModeFits deny exec := by
  cases name with
  | none =>
    cases made
    exact nofun
  | some name =>
    cases named : ExecMode.ofName? name with
    | some mode =>
      have same := List.find?_some named
      rw [← eq_of_beq same, ← Option.map_some] at made
      obtain ⟨rfl, fits⟩ := execOf_eq_ok_iff.mp made
      exact fits
    | none =>
      have other : (name == "x") = false := by
        refine beq_eq_false_iff_ne.mpr ?_
        rintro rfl
        exact absurd named (by decide)
      cases deny <;> simp [execOf, other, named, refuse, reject] at made

theorem targeted_of_make {owner : Bool} {path target : Extent Pattern}
    {letters : Extent (SortedSet Char)} {exec : Option String}
    (made : make deny path letters exec target owner = .ok file) :
    file.Targeted ∧ FileAccess.ModeFits deny file.exec := by
  unfold make at made
  obtain ⟨permissions, _, made⟩ := Checked.bind_eq_ok.mp made
  obtain ⟨mode, fitting, made⟩ := Checked.bind_eq_ok.mp made
  split at made
  · cases made
  · split at made
    · cases made
    · split at made
      · cases made
      next accepted =>
        cases made
        refine ⟨fun stated => ?_, modeFits_of_execOf fitting⟩
        have stated : target.isAll = false := stated
        cases mode with
        | none => exact .inr (by simpa [stated] using accepted)
        | some mode => exact .inl nofun

theorem Made.targeted (made : file.Made deny) : file.Targeted ∧ FileAccess.ModeFits deny file.exec := by
  induction made with
  | everything => exact ⟨nofun, nofun⟩
  | fields made => exact targeted_of_make made
  | styled _ _ _ ih => exact ih

end File

namespace Rule

theorem plain_of_readAs? {kind : RuleKind} {line : List Char}
    (success : readAs? kind line = some (.ok rule)) (hidden : kind.showsModifiers = false) :
    rule.base.Plain := by
  cases kind
  case abi | aliasing | boolean | inclusion | rlimit | assignment =>
    simp only [readAs?, Abi.read?, Aliasing.read?, BooleanSetting.read?, Inclusion.read?, Reference.read?,
      Rlimit.read?, Assignment.read?] at success
    obtain ⟨_, _, _, _, audit, decision⟩ := readBy_withoutModifiers_eq_ok success
    exact ⟨audit, decision⟩
  all_goals cases hidden

theorem Built.plain (built : rule.Built) (hidden : rule.kind.showsModifiers = false) : rule.base.Plain := by
  cases built with
  | @read kind line rule success =>
    have found := readAs?_of_parseAs success
    rw [kind_of_readAs? found] at hidden
    exact plain_of_readAs? found hidden
  | abi made | aliasing made | boolean made | inclusion made | rlimit made | assignment made =>
    exact RuleBase.forbidModifiers_eq_ok_iff.mp (Checked.check_bind_eq_ok.mp made).1
  | _ => cases hidden

theorem Built.wellFormed (built : rule.Built) : rule.WellFormed where
  consistent _ := built.file_consistent
  targeted _ body := (built.file_made body).targeted.1
  mode _ body := (built.file_made body).targeted.2
  plain := built.plain

end Rule

/-! ## What calls keep -/

namespace File.Widened

variable {wider : File} (widened : file.Widened wider)
include widened

theorem consistent (consistent : file.Consistent) : wider.Consistent where
  together := by rw [widened.path, widened.permissions, consistent.together]
  noExec all := by
    rw [widened.path] at all
    rw [widened.exec, consistent.noExec all]
  noTarget all := by
    rw [widened.path] at all
    rw [widened.target, consistent.noTarget all]

theorem targeted (targeted : file.Targeted) : wider.Targeted := by
  intro stated
  rw [widened.target] at stated
  rw [widened.exec]
  exact (targeted stated).imp_right widened.links

end File.Widened

theorem FileAccess.ModeFits.iff_eq {other : Bool} {exec : Option ExecMode}
    (fits : ModeFits deny exec) : ModeFits other exec ↔ (exec ≠ none → other = deny) := by
  cases exec with
  | none => exact ⟨fun _ stated => absurd rfl stated, fun _ => nofun⟩
  | some mode =>
    have bare : mode = .x ↔ deny := fits mode rfl
    constructor
    · intro others _
      rw [Bool.eq_iff_iff, ← bare, others mode rfl]
    · intro same
      rw [same nofun]
      exact fits

namespace Rule

variable (changes : List RuleChange)

theorem exists_file_of_changed {wider : File} (body : (rule.changed changes).body = .file wider) :
    ∃ file, rule.body = .file file ∧ file.Widened wider := by
  have widened := rule.body_changed changes
  rw [body] at widened
  cases shape : rule.body <;> rw [shape] at widened <;> cases widened
  case file.same => exact ⟨wider, rfl, .refl wider⟩
  case file.file file widened => exact ⟨file, rfl, widened⟩

theorem exists_changed_of_file (body : rule.body = .file file) :
    ∃ wider, (rule.changed changes).body = .file wider ∧ file.Widened wider := by
  have widened := rule.body_changed changes
  rw [body] at widened
  generalize (rule.changed changes).body = other at widened
  cases widened with
  | same => exact ⟨file, rfl, .refl file⟩
  | file widened => exact ⟨_, rfl, widened⟩

theorem plain_changed_iff (plain : rule.base.Plain) :
    (rule.changed changes).base.Plain ↔
      (changes.filterMap RuleChange.audit?).getLastD false = false ∧
        (changes.filterMap RuleChange.deny?).getLastD false = false := by
  obtain ⟨noDeny, noWord⟩ := RuleBase.decision_eq_unstated_iff.mp plain.2
  have stillNoWord : (rule.changed changes).base.allowWord = false := by
    refine Bool.eq_false_iff.mpr fun word => ?_
    rw [((allowWord_changed (fun _ => noWord) changes).mp word).1] at noWord
    cases noWord
  rw [RuleBase.Plain, RuleBase.decision_eq_unstated_iff, audit_changed, deny_changed, plain.1, noDeny]
  exact and_congr_right fun _ => and_iff_left stillNoWord

/-- Changing a rule keeps the fields of a file rule together.  What its maker asks for holds exactly where
the calls leave no modifiers on a rule that takes none, and leave the decision of a rule with a mode. -/
theorem changed_wellFormed_iff (built : rule.Built) :
    (∀ file, (rule.changed changes).body = .file file → file.Consistent ∧ file.Targeted) ∧
      ((rule.changed changes).WellFormed ↔
        (rule.kind.showsModifiers = false →
          (changes.filterMap RuleChange.audit?).getLastD false = false ∧
            (changes.filterMap RuleChange.deny?).getLastD false = false) ∧
        ∀ file, rule.body = .file file → file.exec ≠ none →
          (changes.filterMap RuleChange.deny?).getLastD rule.base.deny = rule.base.deny) := by
  have made := built.wellFormed
  have fields : ∀ file, (rule.changed changes).body = .file file → file.Consistent ∧ file.Targeted := by
    intro wider body
    obtain ⟨file, before, widened⟩ := exists_file_of_changed changes body
    exact ⟨widened.consistent (made.consistent file before), widened.targeted (made.targeted file before)⟩
  have kind : (rule.changed changes).kind = rule.kind := (rule.body_changed changes).kind_eq
  refine ⟨fields, fun wellFormed => ⟨fun hidden => ?_, fun file body => ?_⟩, fun ⟨plain, decided⟩ => ?_⟩
  · exact (plain_changed_iff changes (made.plain hidden)).mp (wellFormed.plain (kind ▸ hidden))
  · obtain ⟨wider, after, widened⟩ := exists_changed_of_file changes body
    have fits := wellFormed.mode wider after
    rw [widened.exec, deny_changed] at fits
    exact (made.mode file body).iff_eq.mp fits
  · refine ⟨fun file body => (fields file body).1, fun file body => (fields file body).2, ?_, ?_⟩
    · intro wider body
      obtain ⟨file, before, widened⟩ := exists_file_of_changed changes body
      rw [widened.exec, deny_changed]
      exact (made.mode file before).iff_eq.mpr (decided file before)
    · intro hidden
      rw [kind] at hidden
      exact (plain_changed_iff changes (made.plain hidden)).mpr (plain hidden)

/-- A denial that is taken back leaves the mode and the target as they were. -/
theorem changed_wellFormed_toggled :
    let file : File :=
      { path := .only ⟨"/bar", none⟩, permissions := .only { read := true }, exec := some .Px
        target := .only ⟨"baz", none⟩, owner := false }
    let rule : Rule := ⟨{ written := some "/bar rPx -> baz," }, .file file⟩
    let calls : List RuleChange := [.deny true, .permissions (.singleton 'w'), .owner true, .deny false]
    parseAs .file "/bar rPx -> baz," = .ok rule ∧ (rule.changed calls).WellFormed ∧
      (rule.changed calls).clean 0 = "owner /bar rwPx -> baz," := by
  intro file rule calls
  have read : parseAs .file "/bar rPx -> baz," = .ok rule := by decide +kernel
  refine ⟨read, ?_, by decide +kernel⟩
  exact (changed_wellFormed_iff calls (.read read)).2.mpr ⟨nofun, fun _ _ _ => rfl⟩

/-- A denial leaves a mode that no denial may have, and the rule is not read back from its text.  An audit
stays on a setting, which takes no modifiers. -/
theorem changed_not_wellFormed :
    (∃ rule, parseAs .file "/foo ix," = .ok rule ∧ ¬(rule.changed [.deny true]).WellFormed ∧
      (rule.changed [.deny true]).clean 0 = "deny /foo ix," ∧
      parse? "deny /foo ix," = some (refuse (.denyExecMode "ix"))) ∧
    ∃ rule, parseAs .boolean "$x = true" = .ok rule ∧ ¬(rule.changed [.audit true]).WellFormed := by
  let file : File :=
    { path := .only ⟨"/foo", none⟩, permissions := .only {}, exec := some .ix, target := .all, owner := false }
  let denied : Rule := ⟨{ written := some "/foo ix," }, .file file⟩
  let audited : Rule := ⟨{ written := some "$x = true" }, .boolean ⟨"$x", true⟩⟩
  refine ⟨⟨denied, by decide +kernel, ?_, by decide +kernel, by decide +kernel⟩,
    audited, by decide +kernel, ?_⟩
  · intro wellFormed
    have bare : ExecMode.ix = .x := (wellFormed.mode file rfl .ix rfl).mpr rfl
    cases bare
  · intro wellFormed
    have unaudited : true = false := (wellFormed.plain rfl).1
    cases unaudited

end Rule

end ArmorPolicy
