import ArmorPolicy.Line.Form
import ArmorPolicy.Proofs.Line.Pieces

/-!
# Statements and their modifiers

A statement is read behind its modifiers.  What its line starts with decides that the line opens no
scope and that a grammar with another keyword does not fit.
-/

namespace ArmorPolicy.Line

open Option List Text

variable {found : Bool} {decision : Decision} {rest s : List Char} {word : String}

/-! ## Words at the start -/

theorem prefix_of_after? (found : after? word s = some rest) : word.toList <+: s :=
  ⟨rest, (after?_eq_some_iff.mp found).symm⟩

theorem after?_eq_none (differs : ¬word.toList <+: s) : after? word s = none := by
  cases found : after? word s with
  | none => rfl
  | some rest => exact absurd (prefix_of_after? found) differs

theorem afterWord?_eq_none (differs : ¬word.toList <+: s) : afterWord? word s = none := by
  rw [afterWord?, after?_eq_none differs]
  rfl

/-- Neither word starts the other, so that no text starts with both. -/
def Apart (word other : List Char) : Prop := ¬word <+: other ∧ ¬other <+: word

instance (word other : List Char) : Decidable (Apart word other) :=
  inferInstanceAs (Decidable (_ ∧ _))

theorem Apart.notStarts {word other : List Char} (apart : Apart word other) (starts : other <+: s) :
    ¬word <+: s := by
  intro both
  rcases prefix_or_prefix_of_prefix both starts with first | second
  · exact apart.1 first
  · exact apart.2 second

theorem Apart.symm {word other : List Char} (apart : Apart word other) : Apart other word :=
  ⟨apart.2, apart.1⟩

theorem notStarts_of_head {word : List Char} {c : Char} (differs : ∃ d ∈ word.head?, d ≠ c) :
    ¬word <+: c :: s := by
  obtain ⟨d, first, other⟩ := differs
  rintro ⟨tail, split⟩
  cases word with
  | nil => cases first
  | cons e word =>
    cases first
    exact other (cons.inj split).1

/-! ## Modifiers -/

def modifierWords : List String := ["audit", "allow", "deny"]

def Unmodified (s : List Char) : Prop := ∀ word ∈ modifierWords, ¬word.toList <+: s

theorem optionalWord_of_word (word : String) (starts : StartsSolid s) :
    optionalWord word (word.toList ++ ' ' :: s) = [(true, s), (false, word.toList ++ ' ' :: s)] := by
  simp only [optionalWord, afterWord?_append word starts]

theorem optionalWord_of_absent (absent : ¬word.toList <+: s) : optionalWord word s = [(false, s)] := by
  simp only [optionalWord, afterWord?_eq_none absent]

theorem mem_optionalWord_iff :
    (found, rest) ∈ optionalWord word s ↔
      found = false ∧ rest = s ∨ found ∧ afterWord? word s = some rest := by
  unfold optionalWord
  split
  next behind read =>
    rw [read, mem_cons, mem_singleton, Prod.mk.injEq, Prod.mk.injEq, some.injEq, or_comm,
      eq_comm (a := behind)]
  next unread => simp [unread]

theorem mem_optionalWord (member : (found, rest) ∈ optionalWord word s) :
    rest <:+ s ∧ (found = false → rest = s) := by
  rcases mem_optionalWord_iff.mp member with ⟨_, rfl⟩ | ⟨rfl, read⟩
  · exact ⟨suffix_refl _, fun _ => rfl⟩
  · exact ⟨afterWord?_suffix read, by simp⟩

theorem prefix_of_afterWord? (found : afterWord? word s = some rest) : word.toList <+: s := by
  obtain ⟨_, read, _⟩ := bind_eq_some_iff.mp found
  exact prefix_of_after? read

theorem mem_decisionChoices_iff :
    (decision, rest) ∈ decisionChoices s ↔
      decision = .unstated ∧ rest = s ∨ decision = .allow ∧ afterWord? "allow" s = some rest ∨
        decision = .deny ∧ afterWord? "deny" s = some rest := by
  have apart : Apart "deny".toList "allow".toList := by decide
  unfold decisionChoices
  split
  next behind _ read =>
    have noDeny := afterWord?_eq_none (apart.notStarts (prefix_of_afterWord? read))
    simp [read, noDeny, or_comm, eq_comm]
  next behind noAllow read =>
    simp [read, noAllow, or_comm, eq_comm]
  next noAllow noDeny =>
    simp [noAllow, noDeny]

theorem mem_decisionChoices (member : (decision, rest) ∈ decisionChoices s) :
    rest <:+ s ∧ (decision = .unstated → rest = s) := by
  rcases mem_decisionChoices_iff.mp member with ⟨_, rfl⟩ | ⟨rfl, read⟩ | ⟨rfl, read⟩
  · exact ⟨suffix_refl _, fun _ => rfl⟩
  · exact ⟨afterWord?_suffix read, by simp⟩
  · exact ⟨afterWord?_suffix read, by simp⟩

/-! ### The text behind the modifiers -/

/-- A statement without modifiers stands behind the given modifiers of a line. -/
structure Behind (line : List Char) (audit : Bool) (decision : Decision) (s : List Char) : Prop where
  unmodified : Unmodified s
  choice : ∃ t, (audit, t) ∈ optionalWord "audit" (trimStart line) ∧ (decision, s) ∈ decisionChoices t

theorem optionalWord_eq_cons (member : (found, rest) ∈ optionalWord word s)
    (absent : ¬word.toList <+: rest) : ∃ others, optionalWord word s = (found, rest) :: others := by
  rcases mem_optionalWord_iff.mp member with ⟨rfl, rfl⟩ | ⟨rfl, read⟩
  · exact ⟨[], optionalWord_of_absent absent⟩
  · exact ⟨[(false, s)], by simp only [optionalWord, read]⟩

theorem decisionChoices_eq_cons (member : (decision, rest) ∈ decisionChoices s)
    (unmodified : Unmodified rest) : ∃ others, decisionChoices s = (decision, rest) :: others := by
  rcases mem_decisionChoices_iff.mp member with ⟨rfl, rfl⟩ | ⟨rfl, read⟩ | ⟨rfl, read⟩
  · have noAllow := afterWord?_eq_none (unmodified "allow" (by decide))
    have noDeny := afterWord?_eq_none (unmodified "deny" (by decide))
    exact ⟨[], by simp only [decisionChoices, noAllow, noDeny]⟩
  · exact ⟨[(.unstated, s)], by simp only [decisionChoices, read]⟩
  · have apart : Apart "allow".toList "deny".toList := by decide
    have noAllow := afterWord?_eq_none (apart.notStarts (prefix_of_afterWord? read))
    exact ⟨[(.unstated, s)], by simp only [decisionChoices, read, noAllow]⟩

theorem not_audit_of_mem_decisionChoices (member : (decision, rest) ∈ decisionChoices s)
    (unmodified : Unmodified rest) : ¬"audit".toList <+: s := by
  rcases mem_decisionChoices_iff.mp member with ⟨_, rfl⟩ | ⟨_, read⟩ | ⟨_, read⟩
  · exact unmodified "audit" (by decide)
  · have apart : Apart "audit".toList "allow".toList := by decide
    exact apart.notStarts (prefix_of_afterWord? read)
  · have apart : Apart "audit".toList "deny".toList := by decide
    exact apart.notStarts (prefix_of_afterWord? read)

theorem behind_of_unmodified {line : List Char} (unmodified : Unmodified (trimStart line)) :
    Behind line false .unstated (trimStart line) :=
  ⟨unmodified, trimStart line, mem_optionalWord_iff.mpr (.inl ⟨rfl, rfl⟩),
    mem_decisionChoices_iff.mpr (.inl ⟨rfl, rfl⟩)⟩

namespace Behind

variable {line : List Char} {audit : Bool} (behind : Behind line audit decision s)
include behind

theorem first : ∃ t audits decisions, optionalWord "audit" (trimStart line) = (audit, t) :: audits ∧
      decisionChoices t = (decision, s) :: decisions := by
  obtain ⟨unmodified, t, audits, decisions⟩ := behind
  obtain ⟨others, first⟩ :=
    optionalWord_eq_cons audits (not_audit_of_mem_decisionChoices decisions unmodified)
  obtain ⟨further, second⟩ := decisionChoices_eq_cons decisions unmodified
  exact ⟨t, others, further, first, second⟩

theorem suffix : s <:+ trimStart line := by
  obtain ⟨_, t, audits, decisions⟩ := behind
  exact (mem_decisionChoices decisions).1.trans (mem_optionalWord audits).1

theorem unique {otherAudit : Bool} {otherDecision : Decision} {t : List Char}
    (other : Behind line otherAudit otherDecision t) :
    audit = otherAudit ∧ decision = otherDecision ∧ s = t := by
  obtain ⟨rest, _, _, first, second⟩ := behind.first
  obtain ⟨otherRest, _, _, otherFirst, otherSecond⟩ := other.first
  rw [first] at otherFirst
  obtain ⟨rfl, rfl⟩ := Prod.mk.inj (cons.inj otherFirst).1
  rw [second] at otherSecond
  obtain ⟨rfl, rfl⟩ := Prod.mk.inj (cons.inj otherSecond).1
  exact ⟨rfl, rfl, rfl⟩

theorem withModifiers_eq {α : Type} {read : List Char → Option (α × String)} {parts : α}
    {comment : String} (found : read s = some (parts, comment)) :
    withModifiers read line = some ⟨audit, decision, comment, parts⟩ := by
  obtain ⟨t, _, _, first, second⟩ := behind.first
  simp [withModifiers, first, second, found]

end Behind

section Reading

variable {α : Type} {read : List Char → Option (α × String)} {line : List Char}
  {statement : Statement α}

theorem withModifiers_eq_some (found : withModifiers read line = some statement) :
    ∃ s, s <:+ trimStart line ∧ read s = some (statement.parts, statement.comment) ∧
      (statement.audit = false → statement.decision = .unstated → s = trimStart line) := by
  obtain ⟨⟨audit, behind⟩, first, choices⟩ := exists_of_findSome?_eq_some found
  obtain ⟨⟨decision, s⟩, second, success⟩ := exists_of_findSome?_eq_some choices
  obtain ⟨⟨parts, comment⟩, readable, rfl⟩ := map_eq_some_iff.mp success
  obtain ⟨outer, whole⟩ := mem_optionalWord first
  obtain ⟨inner, rest⟩ := mem_decisionChoices second
  refine ⟨s, inner.trans outer, readable, ?_⟩
  intro noAudit noDecision
  rw [rest noDecision, whole noAudit]

theorem exists_behind (found : withModifiers read line = some statement)
    (heeds : ∀ s, read s = some (statement.parts, statement.comment) → Unmodified s) :
    ∃ s, Behind line statement.audit statement.decision s ∧
      read s = some (statement.parts, statement.comment) := by
  obtain ⟨⟨audit, t⟩, first, choices⟩ := exists_of_findSome?_eq_some found
  obtain ⟨⟨decision, s⟩, second, success⟩ := exists_of_findSome?_eq_some choices
  obtain ⟨⟨parts, comment⟩, readable, rfl⟩ := map_eq_some_iff.mp success
  exact ⟨s, ⟨heeds s readable, t, first, second⟩, readable⟩

theorem withoutModifiers_eq_some (found : withoutModifiers read line = some statement) :
    read (trimStart line) = some (statement.parts, statement.comment) ∧ statement.audit = false ∧
      statement.decision = .unstated := by
  obtain ⟨⟨parts, comment⟩, success, rfl⟩ := map_eq_some_iff.mp found
  exact ⟨success, rfl, rfl⟩

theorem withModifiers_trimStart (line : List Char) :
    withModifiers read (trimStart line) = withModifiers read line := by
  rw [withModifiers, withModifiers, trimStart_trimStart]

theorem withoutModifiers_trimStart (line : List Char) :
    withoutModifiers read (trimStart line) = withoutModifiers read line := by
  rw [withoutModifiers, withoutModifiers, trimStart_trimStart]

theorem keywordStatement_trimStart (word : String) (allowed : Char → Bool) (line : List Char) :
    keywordStatement word allowed (trimStart line) = keywordStatement word allowed line :=
  withModifiers_trimStart line

theorem startsSolid_decision (decision : Decision) (starts : StartsSolid s) :
    StartsSolid (decision.word.toList ++ s) := by
  cases decision with
  | unstated => exact starts
  | allow => exact ⟨'a', "llow ".toList ++ s, rfl, by decide⟩
  | deny => exact ⟨'d', "eny ".toList ++ s, rfl, by decide⟩

theorem startsSolid_modifiers (base : RuleBase) (starts : StartsSolid s) :
    StartsSolid (base.modifiers.toList ++ s) := by
  unfold RuleBase.modifiers
  rw [String.toList_append, append_assoc]
  cases base.audit with
  | false => exact startsSolid_decision base.decision starts
  | true => exact ⟨'a', "udit ".toList ++ (base.decision.word.toList ++ s), rfl, by decide⟩

theorem behind_modifiers (base : RuleBase) (starts : StartsSolid s) (unmodified : Unmodified s) :
    Behind (base.modifiers.toList ++ s) base.audit base.decision s := by
  refine ⟨unmodified, base.decision.word.toList ++ s, mem_optionalWord_iff.mpr ?_,
    mem_decisionChoices_iff.mpr ?_⟩
  · rw [trimStart_of_startsSolid (startsSolid_modifiers base starts)]
    unfold RuleBase.modifiers
    rw [String.toList_append, append_assoc]
    cases base.audit with
    | false => exact .inl ⟨rfl, rfl⟩
    | true => exact .inr ⟨rfl, afterWord?_append "audit" (startsSolid_decision base.decision starts)⟩
  · cases base.decision with
    | unstated => exact .inl ⟨rfl, rfl⟩
    | allow => exact .inr (.inl ⟨rfl, afterWord?_append "allow" starts⟩)
    | deny => exact .inr (.inr ⟨rfl, afterWord?_append "deny" starts⟩)

theorem withModifiers_modifiers (base : RuleBase) (starts : StartsSolid s)
    (unmodified : Unmodified s) {parts : α} {comment : String} (found : read s = some (parts, comment)) :
    withModifiers read (base.modifiers.toList ++ s) = some ⟨base.audit, base.decision, comment, parts⟩ :=
  (behind_modifiers base starts unmodified).withModifiers_eq found

theorem withModifiers_of_unmodified (starts : StartsSolid s) (unmodified : Unmodified s) :
    withModifiers read s = (read s).map fun (parts, comment) => ⟨false, .unstated, comment, parts⟩ := by
  have noAllow := afterWord?_eq_none (unmodified "allow" (by decide))
  have noDeny := afterWord?_eq_none (unmodified "deny" (by decide))
  rw [withModifiers, trimStart_of_startsSolid starts, optionalWord_of_absent (unmodified "audit" (by decide))]
  simp [decisionChoices, noAllow, noDeny]

end Reading

end ArmorPolicy.Line

namespace ArmorPolicy.LineForm

open Text Line

/-! ## Lines of statements -/

/-- What other lines start with, headers apart. -/
def blockWords : List String := ["^", "hat", "\x7d", "if", "#"]

theorem ofLine_eq_statement {line : List Char} (starts : StartsSolid line)
    (noHeader : header? line = none) (noBlock : ∀ word ∈ blockWords, ¬word.toList <+: line) :
    ofLine line = .statement := by
  have trimmed : trimStart line = line := trimStart_of_startsSolid starts
  have noSign := after?_eq_none (noBlock "^" (by decide))
  have noHat := afterWord?_eq_none (noBlock "hat" (by decide))
  have noBrace := after?_eq_none (noBlock "\x7d" (by decide))
  have noIf := afterWord?_eq_none (noBlock "if" (by decide))
  have noComment : isComment line = false := by
    cases line with
    | nil => rfl
    | cons c rest =>
      have differs : c ≠ '#' := by
        rintro rfl
        exact noBlock "#" (by decide) ⟨rest, rfl⟩
      simp [isComment, differs]
  have hat : hat? line = none := by simp [hat?, trimmed, noSign, noHat]
  have closing : isClosing line = false := by simp [isClosing, trimmed, noBrace]
  have conditional : isConditional line = false := by simp [isConditional, trimmed, noIf]
  have alternative : isAlternative line = false := by simp [isAlternative, trimmed, noBrace]
  have changeHat : changeHat? line = none := by simp [changeHat?, trimmed, noSign]
  simp [ofLine, noHeader, hat, closing, conditional, alternative, changeHat, noComment]

theorem header?_eq_none {line : List Char} (starts : StartsSolid line)
    (noPath : ¬"/".toList <+: line) (noMark : ¬"\"".toList <+: line)
    (noWord : ¬"profile".toList <+: line) : header? line = none := by
  have plain : plainHeader? line = none := by
    unfold plainHeader?
    split
    next rest => exact absurd ⟨rest, rfl⟩ noPath
    next rest => exact absurd ⟨'/' :: rest, rfl⟩ noMark
    · rfl
  have worded : wordedHeader? line = none := by
    simp [wordedHeader?, afterWord?_eq_none noWord]
  simp only [header?, trimStart_of_startsSolid starts, plain, worded]
  rfl

end ArmorPolicy.LineForm
