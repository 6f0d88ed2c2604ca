import ArmorPolicy.Rule.Reader

/-!
# What reading a rule gives

A rule that was read from a line has the kind of the grammar that it fits, keeps the line as it was
written, and has the body that its kind makes of the parts of the line.
-/

namespace ArmorPolicy

variable {line : List Char} {rule : Rule} {kind : RuleKind}

namespace Checked

variable {α β : Type} {result : Checked α}

theorem bind_eq_ok {f : α → Checked β} {b : β} :
    (result >>= f) = .ok b ↔ ∃ a, result = .ok a ∧ f a = .ok b := by
  cases result <;> simp [bind, Except.bind]

theorem bind_eq_error {f : α → Checked β} {error : PolicyError} :
    (result >>= f) = .error error ↔ result = .error error ∨ ∃ a, result = .ok a ∧ f a = .error error := by
  cases result <;> simp [bind, Except.bind]

theorem map_eq_bind (f : α → β) : result.map f = result >>= fun a => .ok (f a) := by
  cases result <;> rfl

theorem map_eq_ok {f : α → β} {b : β} : result.map f = .ok b ↔ ∃ a, result = .ok a ∧ f a = b := by
  simp [map_eq_bind, bind_eq_ok]

theorem map_eq_error {f : α → β} {error : PolicyError} : result.map f = .error error ↔ result = .error error := by
  simp [map_eq_bind, bind_eq_error]

theorem check_bind_eq_ok {check : Checked Unit} {next : Unit → Checked α} {a : α} :
    (check >>= next) = .ok a ↔ check = .ok () ∧ next () = .ok a :=
  bind_eq_ok.trans ⟨fun ⟨_, passed, made⟩ => ⟨passed, made⟩, fun ⟨passed, made⟩ => ⟨(), passed, made⟩⟩

theorem unless_eq_ok {fails : Prop} [Decidable fails] {error : PolicyError} {next : Unit → Checked α} {a : α} :
    (if fails then (.error error : Checked Unit) >>= next else next ()) = .ok a ↔ ¬fails ∧ next () = .ok a := by
  split
  next holds => exact ⟨nofun, fun both => absurd holds both.1⟩
  next passes => exact ⟨fun made => ⟨passes, made⟩, And.right⟩

theorem mapError_eq_ok {f : PolicyError → PolicyError} {a : α} (success : result.mapError f = .ok a) :
    result = .ok a := by
  cases result with
  | error e => cases success
  | ok value => exact success

end Checked

namespace RuleBase

variable {base : RuleBase}

/-- A denial is not said to allow. -/
def Exclusive (base : RuleBase) : Prop := base.deny = true → base.allowWord = false

/-- As it is read from a line. -/
structure Stated (base : RuleBase) : Prop where
  policy : base.origin = .policy
  exclusive : base.Exclusive

theorem decision_eq_unstated_iff : base.decision = .unstated ↔ base.deny = false ∧ base.allowWord = false := by
  unfold decision
  cases base.deny <;> cases base.allowWord <;> decide

theorem forbidModifiers_eq_ok_iff {kind : RuleKind} :
    base.forbidModifiers kind = .ok () ↔ base.audit = false ∧ base.decision = .unstated := by
  simp [forbidModifiers, refuse, decision_eq_unstated_iff, and_assoc]

end RuleBase

namespace Line.Statement

variable {α : Type} (statement : Statement α) (line : List Char)

theorem decision_base : (statement.base line).decision = statement.decision := by
  unfold base RuleBase.decision
  cases statement.decision <;> rfl

theorem stated_base : (statement.base line).Stated := by
  refine ⟨rfl, ?_⟩
  change (statement.decision == .deny) = true → (statement.decision == .allow) = false
  cases statement.decision <;> decide

theorem base_decision {base : RuleBase} (stated : base.Stated) (parts : α) :
    (⟨base.audit, base.decision, base.comment, parts⟩ : Statement α).base line =
      { base with written := some (String.ofList (Text.trim line)) } := by
  obtain ⟨policy, exclusive⟩ := stated
  unfold Statement.base RuleBase.decision
  cases deny : base.deny with
  | false => cases base.allowWord <;> simp [policy]
  | true => simp [exclusive deny, policy]

end Line.Statement

namespace Rule

open Line

theorem readBy_eq_ok {α : Type} {read : List Char → Option (Statement α)}
    {make : RuleBase → α → Checked RuleBody} (success : readBy read make line = some (.ok rule)) :
    ∃ statement, read line = some statement ∧ rule.base = statement.base line ∧
      make (statement.base line) statement.parts = .ok rule.body := by
  obtain ⟨statement, found, made⟩ := Option.map_eq_some_iff.mp success
  obtain ⟨body, bodyMade, rfl⟩ := Checked.map_eq_ok.mp made
  exact ⟨statement, found, rfl, bodyMade⟩

theorem kind_of_readAs? (success : readAs? kind line = some (.ok rule)) : rule.kind = kind := by
  cases kind <;> simp only [readAs?] at success <;>
    obtain ⟨_, _, _, made⟩ := readBy_eq_ok success
  case freeform =>
    rw [Rule.kind, ← Except.ok.inj made]
    rfl
  all_goals
    obtain ⟨content, _, shape⟩ := Checked.map_eq_ok.mp made
    rw [Rule.kind, ← shape]
    rfl

theorem written_of_readAs? (success : readAs? kind line = some (.ok rule)) :
    rule.base.written = some (String.ofList (Text.trim line)) := by
  cases kind <;> simp only [readAs?] at success <;>
    obtain ⟨_, _, base, _⟩ := readBy_eq_ok success <;>
    rw [base, Statement.base]

theorem stated_of_readAs? (success : readAs? kind line = some (.ok rule)) : rule.base.Stated := by
  cases kind <;> simp only [readAs?] at success <;>
    obtain ⟨statement, _, base, _⟩ := readBy_eq_ok success <;>
    exact base ▸ statement.stated_base line

theorem readAs?_of_parseAs {line : String} (success : parseAs kind line = .ok rule) :
    readAs? kind line.toList = some (.ok rule) := by
  unfold parseAs at success
  split at success
  next result found => rw [found, success]
  · cases success

theorem readAs?_of_parse? {line : String} {result : Checked Rule}
    (success : parse? line = some result) : ∃ kind, readAs? kind line.toList = some result := by
  obtain ⟨kind, _, found⟩ := List.exists_of_findSome?_eq_some success
  exact ⟨kind, found⟩

end Rule

end ArmorPolicy
