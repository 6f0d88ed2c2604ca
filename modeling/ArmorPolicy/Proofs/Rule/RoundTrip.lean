import ArmorPolicy.Proofs.Profile.Listing
import ArmorPolicy.Proofs.Rule.Capability
import ArmorPolicy.Proofs.Rule.DbusRereading
import ArmorPolicy.Proofs.Rule.FileLine
import ArmorPolicy.Proofs.Rule.Keyword
import ArmorPolicy.Proofs.Rule.Reference
import ArmorPolicy.Proofs.Rule.Rlimit
import ArmorPolicy.Proofs.Rule.VariableRereading

/-!
# Rules read from their canonical text

A rule is written as its canonical line, behind the indentation of its depth.  Reading that text gives
a rule of the same kind and comment that says the same and is written the same way, as long as what is
written for its values is read as them.  Kinds that start with a keyword have this for every line from
which they were read; kinds with paths have it for lines without quotation marks in which every blank is
a space.  Rules of clauses and assignments are taken apart at blanks, commas, parentheses and quotation
marks.  The marks are written again for a space only, so what else they kept together comes apart, and
no other value is lost.
-/

namespace ArmorPolicy

open Text Line

/-- The values are told apart in the text that is written for them, and no comment sign in it ends its
line. -/
def RuleBody.Rereadable : RuleBody → Prop
  | .dbus content =>
    (content.singles.Legible ∧ content.peers.LegibleItems) ∧ Uncommented content.text.toList
  | .ptrace content => content.singles.Legible ∧ Uncommented content.text.toList
  | .signal content => content.singles.Legible ∧ Uncommented content.text.toList
  | .assignment content => content.Legible ∧ Assignment.Unsigned content.written
  | _ => True

instance (body : RuleBody) : Decidable body.Rereadable := by
  cases body <;> dsimp only [RuleBody.Rereadable] <;> infer_instance

namespace Rule

variable {rule : Rule} {line : List Char}

/-- What is written for the values of the rule is read as them. -/
def Restatable (rule : Rule) : Prop :=
  match rule.body with
  | .aliasing content => content.Legible
  | .changeProfile content => content.Legible
  | .file content => content.Legible ∧ ('"' ∉ rule.writtenLine ∨ content.Unmistaken)
  | body => body.Rereadable

instance (rule : Rule) : Decidable rule.Restatable := by
  unfold Restatable
  split <;> infer_instance

theorem unassigned_of_parse? (success : parse? (String.ofList line) = some (.ok rule))
    (isFile : rule.kind = .file) : readAs? .assignment line = none := by
  obtain ⟨before, kind, behind, split, found, earlier⟩ := List.findSome?_eq_some_iff.mp success
  rw [String.toList_ofList] at found earlier
  obtain rfl : kind = .file := (kind_of_readAs? found).symm.trans isFile
  have distinct : (before ++ .file :: behind).Nodup := split ▸ (by decide : readingOrder.Nodup)
  have apart : ∀ other ∈ before, (other != .file) := by
    intro other member
    have differs := (List.nodup_append.mp distinct).2.2 other member .file List.mem_cons_self
    simpa using differs
  have front : readingOrder.takeWhile (· != .file) = before := by
    rw [split, List.takeWhile_append_of_pos apart]
    simp
  refine earlier .assignment ?_
  rw [← front]
  decide

theorem recovered (oneLine : '\n' ∉ rule.writtenLine) (restatable : rule.Restatable)
    (success : parse? (String.ofList rule.writtenLine) = some (.ok rule)) : rule.Restored rule.writtenLine := by
  obtain ⟨kind, found⟩ := readAs?_of_parse? success
  rw [String.toList_ofList] at found
  have same := kind_of_readAs? found
  unfold Restatable at restatable
  cases body : rule.body <;> rw [body] at restatable <;> rw [Rule.kind, body] at same <;> subst same
  case abi => exact recovered_abi found
  case aliasing => exact recovered_aliasing oneLine found body restatable
  case assignment =>
    obtain ⟨content, assigns⟩ := assigns_of_readAs? found
    cases body.symm.trans assigns.body
    exact assigns.recovered restatable.1 restatable.2
  case boolean => exact recovered_boolean found
  case capability => exact recovered_capability found
  case changeProfile => exact recovered_changeProfile found body restatable
  case dbus => exact dbusGrammar.recovered found body restatable.1 (body ▸ restatable.2)
  case file =>
    exact recovered_file oneLine (unassigned_of_parse? success (kind_of_readAs? found)) found body
      restatable.1 restatable.2
  case freeform => exact recovered_freeform found
  case inclusion => exact recovered_inclusion found
  case network => exact recovered_network found
  case ptrace => exact ptraceGrammar.recovered found body restatable.1 (body ▸ restatable.2)
  case rlimit => exact recovered_rlimit found
  case signal => exact signalGrammar.recovered found body restatable.1 (body ▸ restatable.2)
  case userns => exact recovered_userns found

theorem readAs?_kind_of_parse? {text : String} (success : parse? text = some (.ok rule)) :
    readAs? rule.kind text.toList = some (.ok rule) := by
  obtain ⟨kind, found⟩ := readAs?_of_parse? success
  rwa [kind_of_readAs? found]

/-- Rules of a keyword and words are read back from their text, whatever line they were read from. -/
theorem keyword_readBackFrom_clean {text : String} (success : parse? text = some (.ok rule))
    (keyword : rule.kind ∈ [.abi, .inclusion, .boolean, .capability, .network, .rlimit, .userns, .freeform])
    (depth : Nat) : rule.ReadBackFrom (rule.clean depth) := by
  have found := readAs?_kind_of_parse? success
  have recovered : rule.Recovered text.toList (.ok rule.rewritten) := by
    revert found keyword
    cases rule.kind <;> intro keyword found
    case abi => exact recovered_abi found
    case inclusion => exact recovered_inclusion found
    case boolean => exact recovered_boolean found
    case capability => exact recovered_capability found
    case network => exact recovered_network found
    case rlimit => exact recovered_rlimit found
    case userns => exact recovered_userns found
    case freeform => exact recovered_freeform found
    all_goals exact absurd keyword (by decide)
  exact recovered.readBackFrom depth

/-- The names are sorted, blanks are folded, and the comma behind the comment sign stays in the
comment. -/
theorem keyword_readBackFrom_clean_capability :
    ∃ rule, parse? " audit  deny capability sys_admin\tchown , # both, kept " = some (.ok rule) ∧
      rule.clean 0 = "audit deny capability chown sys_admin, # both, kept" ∧
      rule.ReadBackFrom (rule.clean 3) := by
  let base : RuleBase :=
    ⟨true, true, false, " # both, kept", some "audit  deny capability sys_admin\tchown , # both, kept", .policy⟩
  let rule : Rule := ⟨base, .capability ⟨.only (.ofList ["sys_admin", "chown"])⟩⟩
  have read : parse? " audit  deny capability sys_admin\tchown , # both, kept " = some (.ok rule) := by
    rfl
  exact ⟨rule, read, by decide +kernel, keyword_readBackFrom_clean read (by decide) 3⟩

/-- Rules with paths are read back where the line holds no quotation mark and no blank but spaces. -/
theorem path_readBackFrom_clean {text : String} (plain : '"' ∉ text.toList)
    (spaces : ∀ c ∈ text.toList, isBlank c = true → c = ' ') (success : parse? text = some (.ok rule))
    (path : rule.kind ∈ [.file, .changeProfile, .aliasing]) (depth : Nat) :
    rule.ReadBackFrom (rule.clean depth) := by
  have oneLine : '\n' ∉ text.toList := fun newline => absurd (spaces '\n' newline (by decide)) (by decide)
  have found := readAs?_kind_of_parse? success
  have recovered : rule.Restored text.toList := by
    rw [kind] at found path
    cases body : rule.body <;> rw [body] at found path
    case aliasing => exact recovered_aliasing oneLine found body (legible_of_aliasing oneLine plain found body)
    case changeProfile => exact recovered_changeProfile found body (legible_of_changeProfile plain found body)
    case file =>
      have unassigned : readAs? .assignment text.toList = none :=
        unassigned_of_parse? (by rwa [String.ofList_toList]) (by rw [kind, body]; rfl)
      exact recovered_file oneLine unassigned found body (legible_of_file plain found body) (.inl plain)
    all_goals
      rw [RuleBody.kind] at path
      exact absurd path (by decide)
  exact recovered.readBackFrom depth

/-- The path of an alias may hold spaces, and then only its canonical form is quoted. -/
theorem path_readBackFrom_clean_alias :
    ∃ rule, parse? "alias /old home  -> /new,  # moved, once" = some (.ok rule) ∧
      rule.clean 0 = "alias \"/old home\" -> /new, # moved, once" ∧ rule.ReadBackFrom (rule.clean 0) := by
  let base : RuleBase :=
    ⟨false, false, false, " # moved, once", some "alias /old home  -> /new,  # moved, once", .policy⟩
  let rule : Rule := ⟨base, .aliasing ⟨"/old home", "/new"⟩⟩
  have read : parse? "alias /old home  -> /new,  # moved, once" = some (.ok rule) := by
    rfl
  exact ⟨rule, read, by decide +kernel,
    path_readBackFrom_clean (by decide) (by decide) read (by decide) 0⟩

/-- A rule of clauses or an assignment is read back from its canonical line, as a rule that says the
same, exactly where its values are legible. -/
theorem tokenised_reread_iff {text : String} (success : parse? text = some (.ok rule))
    (tokenised : rule.kind ∈ [.dbus, .ptrace, .signal, .assignment]) (depth : Nat) :
    rule.RereadFrom (rule.clean depth) ↔ rule.body.Rereadable := by
  have found := readAs?_kind_of_parse? success
  rw [kind] at found tokenised
  cases shape : rule.body <;> rw [shape] at found tokenised
  case dbus dbus =>
    have same := dbusGrammar.rereadFrom_iff found shape depth
    rwa [shape] at same
  case ptrace ptrace =>
    have same := ptraceGrammar.rereadFrom_iff found shape depth
    rwa [shape] at same
  case signal signal =>
    have same := signalGrammar.rereadFrom_iff found shape depth
    rwa [shape] at same
  case assignment assignment => exact rereadFrom_assignment found shape depth
  all_goals
    rw [RuleBody.kind] at tokenised
    exact absurd tokenised (by decide)

/-- A space asks for the quotation marks that keep a parenthesis and a comma in a name. -/
theorem tokenised_reread_parenthesis :
    ∃ rule, parse? "dbus (send, receive) peer=(label=\"x\" name=\"a b)c, d\"), # e, #f" = some (.ok rule) ∧
      rule.clean 0 = "dbus (receive send) peer=(name=\"a b)c, d\" label=x), # e, #f" ∧
      rule.RereadFrom (rule.clean 0) := by
  generalize result : parse? "dbus (send, receive) peer=(label=\"x\" name=\"a b)c, d\"), # e, #f" = outcome
  have checked : (outcome.any fun found => found.toOption.any fun rule => decide (
      rule.kind ∈ [.dbus, .ptrace, .signal, .assignment] ∧ rule.body.Rereadable ∧
        rule.clean 0 = "dbus (receive send) peer=(name=\"a b)c, d\" label=x), # e, #f")) = true := by
    rw [← result]
    decide +kernel
  rcases outcome with _ | _ | rule
  · cases checked
  · cases checked
  · obtain ⟨tokenised, rereadable, text⟩ := of_decide_eq_true checked
    exact ⟨rule, rfl, text, (tokenised_reread_iff result tokenised 0).mpr rereadable⟩

/-- A comma in a value, with no space, is written without quotation marks, and the line cannot be
read. -/
theorem tokenised_unreadable :
    ∃ rule, parse? "signal peer=\"x,y\"," = some (.ok rule) ∧ rule.kind = .signal ∧
      rule.clean 0 = "signal peer=x,y," ∧ ∀ again, parse? (rule.clean 0) ≠ some (.ok again) := by
  generalize result : parse? "signal peer=\"x,y\"," = outcome
  have checked : (outcome.any fun found => found.toOption.any fun rule => decide (
      rule.kind = .signal ∧ rule.clean 0 = "signal peer=x,y,")) = true := by
    rw [← result]
    decide +kernel
  have refused : (parse? "signal peer=x,y,").any (·.toOption.isSome) = false := by decide +kernel
  rcases outcome with _ | _ | rule
  · cases checked
  · cases checked
  · obtain ⟨kind, text⟩ := of_decide_eq_true checked
    refine ⟨rule, rfl, kind, text, fun again read => ?_⟩
    rw [← text, read] at refused
    cases refused

end Rule

end ArmorPolicy
