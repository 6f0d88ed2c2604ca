import ArmorPolicy.Proofs.Rule.Preorder

/-!
# Rules that say the same

What a rule says is its plain form: patterns without the literal text of an event, a file rule without
its style, a limit without the spelling of its value.  Two rules say the same exactly if they are
audited alike, decide alike and have one plain form, so this is an equivalence.  Of the covering rule,
coverage looks at the plain form only; since every rule covers itself, rules that say the same cover
each other.
-/

namespace ArmorPolicy

variable {other rule : Rule} {body : RuleBody}

/-! ## Fields -/

def Pattern.plain (pattern : Pattern) : Pattern := ⟨pattern.glob, none⟩

theorem Pattern.same_iff {pattern other : Pattern} : pattern.same other ↔ pattern.plain = other.plain := by
  simp [same, plain]

namespace Extent

def plain : Extent Pattern → Extent Pattern
  | .all => .all
  | .only pattern => .only pattern.plain

theorem sameBy_iff {field other : Extent Pattern} :
    field.sameBy Pattern.same other ↔ field.plain = other.plain := by
  cases field <;> cases other <;> simp [sameBy, plain, Pattern.same_iff]

@[simp] theorem isAll_plain (field : Extent Pattern) : field.plain.isAll = field.isAll := by
  cases field <;> rfl

@[simp] theorem coversBy_plain (field other : Extent Pattern) :
    field.plain.coversBy Pattern.covers other = field.coversBy Pattern.covers other := by
  cases field <;> cases other <;> rfl

end Extent

/-! ## Bodies with patterns or spellings -/

namespace ChangeProfile

def plain (change : ChangeProfile) : ChangeProfile :=
  { change with condition := change.condition.plain, target := change.target.plain }

theorem same_iff {change other : ChangeProfile} : change.same other ↔ change.plain = other.plain := by
  simp [same, plain, Extent.sameBy_iff, and_assoc]

theorem covers_plain (change other : ChangeProfile) : change.plain.covers other = change.covers other := by
  simp [covers, plain]

end ChangeProfile

namespace Dbus

def plain (dbus : Dbus) : Dbus :=
  { dbus with
    path := dbus.path.plain
    name := dbus.name.plain
    interface := dbus.interface.plain
    member := dbus.member.plain
    peerName := dbus.peerName.plain
    peerLabel := dbus.peerLabel.plain }

theorem same_iff {dbus other : Dbus} : dbus.same other ↔ dbus.plain = other.plain := by
  simp [same, plain, Extent.sameBy_iff, and_assoc]

theorem covers_plain (dbus other : Dbus) : dbus.plain.covers other = dbus.covers other := by
  simp [covers, plain]

end Dbus

namespace File

def plain (file : File) : File :=
  { file with
    path := file.path.plain
    target := file.target.plain
    fileWord := false
    permissionsFirst := false }

theorem same_iff {file other : File} : file.same other false ↔ file.plain = other.plain := by
  simp only [same, plain, Bool.not_false, Bool.true_or, Bool.and_true, Bool.and_eq_true, beq_iff_eq,
    Extent.sameBy_iff, mk.injEq, and_true]
  constructor
  · rintro ⟨⟨⟨⟨owner, path⟩, permissions⟩, exec⟩, target⟩
    exact ⟨path, permissions, exec, target, owner⟩
  · rintro ⟨path, permissions, exec, target, owner⟩
    exact ⟨⟨⟨⟨owner, path⟩, permissions⟩, exec⟩, target⟩

theorem same_of_strict {file other : File} (same : file.same other true) : file.same other false := by
  simp only [File.same, Bool.and_eq_true] at same ⊢
  exact ⟨same.1, rfl⟩

theorem covers_plain (file other : File) : file.plain.covers other = file.covers other := by
  simp [covers, targetCovers, plain]

end File

namespace Ptrace

def plain (ptrace : Ptrace) : Ptrace := { ptrace with peer := ptrace.peer.plain }

theorem same_iff {ptrace other : Ptrace} : ptrace.same other ↔ ptrace.plain = other.plain := by
  simp [same, plain, Extent.sameBy_iff]

theorem covers_plain (ptrace other : Ptrace) : ptrace.plain.covers other = ptrace.covers other := by
  simp [covers, plain]

end Ptrace

namespace Rlimit

def plain (rlimit : Rlimit) : Rlimit := { rlimit with value := "" }

theorem same_iff {rlimit other : Rlimit} : rlimit.same other ↔ rlimit.plain = other.plain := by
  simp [same, plain]

end Rlimit

namespace Signal

def plain (signal : Signal) : Signal := { signal with peer := signal.peer.plain }

theorem same_iff {signal other : Signal} : signal.same other ↔ signal.plain = other.plain := by
  simp [same, plain, Extent.sameBy_iff, and_assoc]

theorem covers_plain (signal other : Signal) : signal.plain.covers other = signal.covers other := by
  simp [covers, plain]

end Signal

/-! ## Bodies -/

namespace RuleBody

def plain : RuleBody → RuleBody
  | .changeProfile content => .changeProfile content.plain
  | .dbus content => .dbus content.plain
  | .file content => .file content.plain
  | .ptrace content => .ptrace content.plain
  | .rlimit content => .rlimit content.plain
  | .signal content => .signal content.plain
  | body => body

theorem kind_plain (body : RuleBody) : body.plain.kind = body.kind := by
  cases body <;> rfl

theorem same?_iff {other : RuleBody} : body.same? false other = some true ↔ body.plain = other.plain := by
  cases body <;> cases other <;>
    simp [same?, plain, ChangeProfile.same_iff, Dbus.same_iff, File.same_iff, Ptrace.same_iff,
      Rlimit.same_iff, Signal.same_iff]

theorem same?_of_strict {other : RuleBody} (same : body.same? true other = some true) :
    body.same? false other = some true := by
  cases body <;> cases other <;> try exact same
  exact congrArg some (File.same_of_strict (Option.some.inj same))

theorem covers?_plain (body other : RuleBody) : body.plain.covers? other = body.covers? other := by
  cases body <;> cases other <;> try rfl
  · exact congrArg some (ChangeProfile.covers_plain _ _)
  · exact congrArg some (Dbus.covers_plain _ _)
  · exact congrArg some (File.covers_plain _ _)
  · exact congrArg some (Ptrace.covers_plain _ _)
  · exact congrArg some (Signal.covers_plain _ _)

theorem covers_of_plain {other : RuleBody} (same : body.plain = other.plain) : body.Covers other := by
  have covered : other.Covers other := other.covers_self
  rw [Covers, ← covers?_plain] at covered ⊢
  rw [same]
  exact covered

end RuleBody

/-! ## Rules -/

theorem RuleBase.covers_of_strictest {base other : RuleBase} (covered : base.covers other true true)
    (checkDecision checkAudit : Bool) : base.covers other checkDecision checkAudit := by
  rw [covers_iff] at covered ⊢
  obtain ⟨⟨sameDecision, denies⟩, sameAudit, audits⟩ := covered
  exact ⟨⟨fun _ => sameDecision rfl, denies⟩, fun _ => sameAudit rfl, audits⟩

theorem RuleBase.covers_of_same {base other : RuleBase} (audit : base.audit = other.audit)
    (deny : base.deny = other.deny) (checkDecision checkAudit : Bool) :
    base.covers other checkDecision checkAudit := by
  simp [covers, audit, deny]

namespace Rule

/-- Two rules say the same: they are audited alike, decide alike and have one plain form. -/
structure SaysSame (rule other : Rule) : Prop where
  audit : rule.base.audit = other.base.audit
  deny : rule.base.deny = other.base.deny
  plain : rule.body.plain = other.body.plain

theorem equivalence_saysSame : Equivalence SaysSame where
  refl _ := ⟨rfl, rfl, rfl⟩
  symm same := ⟨same.audit.symm, same.deny.symm, same.plain.symm⟩
  trans first second :=
    ⟨first.audit.trans second.audit, first.deny.trans second.deny, first.plain.trans second.plain⟩

theorem SaysSame.kind_eq (same : rule.SaysSame other) : rule.kind = other.kind := by
  rw [kind, kind, ← RuleBody.kind_plain, same.plain, RuleBody.kind_plain]

theorem sameAs_false_iff : rule.sameAs false other ↔ rule.SaysSame other := by
  have bodies : (rule.body.same? false other.body).getD false ↔ rule.body.plain = other.body.plain := by
    simp [← RuleBody.same?_iff, Option.getD_eq_iff]
  simp only [sameAs, RuleBase.same, Bool.not_false, Bool.true_or, Bool.and_true, Bool.and_eq_true,
    beq_iff_eq, bodies]
  constructor
  · rintro ⟨⟨audit, deny⟩, plain⟩
    exact ⟨audit, deny, plain⟩
  · rintro ⟨audit, deny, plain⟩
    exact ⟨⟨audit, deny⟩, plain⟩

theorem sameAs_of_strict (same : rule.sameAs true other) : rule.sameAs false other := by
  simp only [sameAs, RuleBase.same, Bool.and_eq_true] at same ⊢
  refine ⟨⟨same.1.1, rfl⟩, ?_⟩
  have strict : rule.body.same? true other.body = some true := by simpa [Option.getD_eq_iff] using same.2
  rw [RuleBody.same?_of_strict strict]
  rfl

/-! ## Comparisons within a kind -/

theorem same_eq_ok_iff {strict : Bool} :
    rule.same other strict = .ok true ↔ rule.kind = other.kind ∧ rule.sameAs strict other := by
  unfold Rule.same
  split
  next kinds => simp [kinds]
  next kinds => simp [kinds, reject]

theorem covers_eq_ok_iff {checkDecision checkAudit : Bool} :
    rule.covers other checkDecision checkAudit = .ok true ↔
      rule.kind = other.kind ∧ rule.coversWith checkDecision checkAudit other := by
  unfold Rule.covers
  split
  next kinds => simp [kinds]
  next kinds => simp [kinds, reject]

theorem same_iff_saysSame : rule.same other false = .ok true ↔ rule.SaysSame other := by
  rw [same_eq_ok_iff, sameAs_false_iff]
  exact and_iff_right_of_imp SaysSame.kind_eq

theorem SaysSame.covers (same : rule.SaysSame other) (checkDecision checkAudit : Bool) :
    rule.covers other checkDecision checkAudit = .ok true := by
  rw [covers_eq_ok_iff, coversWith, RuleBase.covers_of_same same.audit same.deny, Bool.true_and]
  exact ⟨same.kind_eq, RuleBody.covers_of_plain same.plain⟩

theorem covers_of_strictest (covered : rule.covers other true true = .ok true)
    (checkDecision checkAudit : Bool) : rule.covers other checkDecision checkAudit = .ok true := by
  simp only [covers_eq_ok_iff, coversWith, Bool.and_eq_true] at covered ⊢
  obtain ⟨kinds, base, body⟩ := covered
  exact ⟨kinds, RuleBase.covers_of_strictest base checkDecision checkAudit, body⟩

abbrev OfKind (kind : RuleKind) : Type := { rule : Rule // rule.kind = kind }

/-- Within each kind, to say the same is an equivalence.  Rules that say the same cover each other in
every sense, rules that are strictly the same say the same, and a rule that covers another one with its
decision and audit covers it in every sense. -/
theorem same_refines_covers (kind : RuleKind) :
    Equivalence (fun rule other : OfKind kind => rule.1.same other.1 false = .ok true) ∧
      ∀ rule other : Rule,
        (rule.same other false = .ok true → ∀ checkDecision checkAudit : Bool,
          rule.covers other checkDecision checkAudit = .ok true ∧
            other.covers rule checkDecision checkAudit = .ok true) ∧
        (rule.same other true = .ok true → rule.same other false = .ok true) ∧
        (rule.covers other true true = .ok true → ∀ checkDecision checkAudit : Bool,
          rule.covers other checkDecision checkAudit = .ok true) := by
  refine ⟨⟨fun rule => ?_, fun same => ?_, fun first second => ?_⟩, fun rule other => ⟨?_, ?_, ?_⟩⟩
  · exact same_iff_saysSame.mpr (equivalence_saysSame.refl rule.1)
  · exact same_iff_saysSame.mpr (equivalence_saysSame.symm (same_iff_saysSame.mp same))
  · exact same_iff_saysSame.mpr
      (equivalence_saysSame.trans (same_iff_saysSame.mp first) (same_iff_saysSame.mp second))
  · intro same checkDecision checkAudit
    have agree := same_iff_saysSame.mp same
    exact ⟨agree.covers checkDecision checkAudit,
      (equivalence_saysSame.symm agree).covers checkDecision checkAudit⟩
  · intro strict
    obtain ⟨kinds, same⟩ := same_eq_ok_iff.mp strict
    exact same_eq_ok_iff.mpr ⟨kinds, sameAs_of_strict same⟩
  · exact covers_of_strictest

end Rule

end ArmorPolicy
