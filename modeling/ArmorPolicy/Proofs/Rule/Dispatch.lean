import ArmorPolicy.Proofs.Line.Statement
import ArmorPolicy.Proofs.Rule.Reading

/-!
# Which grammar reads a line

All kinds but file rules start with a word of their own, behind the modifiers.  No line starts with
the words of two kinds, so that a line is read by the grammar whose word it starts with.
-/

namespace ArmorPolicy

open Option List Text Line

variable {line s : List Char} {rule : Rule} {kind : RuleKind} {comment word : String}

namespace RuleKind

def keywords : RuleKind → List String
  | .abi => ["abi"]
  | .aliasing => ["alias"]
  | .boolean => ["$"]
  | .capability => ["capability"]
  | .changeProfile => ["change_profile"]
  | .dbus => ["dbus"]
  | .file => []
  | .inclusion => ["include"]
  | .network => ["network"]
  | .freeform => Freeform.keywords
  | .ptrace => ["ptrace"]
  | .rlimit => ["set"]
  | .signal => ["signal"]
  | .userns => ["userns"]
  | .assignment => ["@\x7b"]

/-- The same with an optional sign, where the grammar has one. -/
def leads (kind : RuleKind) : List String :=
  match kind with
  | .abi | .inclusion => kind.keywords ++ kind.keywords.map ("#" ++ ·)
  | kind => kind.keywords

/-- Words of other lines, and those that may stand before a statement. -/
def foreignWords : List String := modifierWords ++ ["/", "\"", "profile", "^", "hat", "\x7d", "if", "#"]

theorem keywords_apart (kind : RuleKind) {other : String} (member : word ∈ kind.keywords)
    (foreign : other ∈ foreignWords) : Apart other.toList word.toList := by
  have all : ∀ kind ∈ RuleKind.all, ∀ word ∈ kind.keywords, ∀ other ∈ foreignWords,
      Apart other.toList word.toList := by decide
  exact all kind (mem_all kind) word member other foreign

theorem leads_apart_modifiers (kind : RuleKind) {other : String} (member : word ∈ kind.leads)
    (modifier : other ∈ modifierWords) : Apart word.toList other.toList := by
  have all : ∀ kind ∈ RuleKind.all, ∀ word ∈ kind.leads, ∀ other ∈ modifierWords,
      Apart word.toList other.toList := by decide
  exact all kind (mem_all kind) word member other modifier

theorem mem_leads (member : word ∈ kind.keywords) : word ∈ kind.leads := by
  unfold leads
  split
  · exact mem_append_left _ member
  · exact mem_append_left _ member
  · exact member

theorem leads_apart {other : RuleKind} (differs : other ≠ kind) {lead : String}
    (member : word ∈ kind.leads) (among : lead ∈ other.leads) : Apart lead.toList word.toList := by
  have all : ∀ kind ∈ RuleKind.all, ∀ other ∈ RuleKind.all, other ≠ kind →
      ∀ word ∈ kind.leads, ∀ lead ∈ other.leads, Apart lead.toList word.toList := by
    decide +kernel
  exact all kind (mem_all kind) other (mem_all other) differs word member lead among

end RuleKind

/-! ## Grammars and their words -/

section Grammars

variable {α β : Type} {words : List String}

/-- The grammar fits only texts that start with one of the words. -/
def NeedsLead (words : List String) (read : List Char → Option α) : Prop :=
  ∀ s found, read s = some found → ∃ word ∈ words, word.toList <+: s

theorem NeedsLead.bind {read : List Char → Option α} (needs : NeedsLead words read)
    (next : α → Option β) : NeedsLead words fun s => (read s).bind next := by
  intro s found readable
  obtain ⟨first, begun, _⟩ := bind_eq_some_iff.mp readable
  exact needs s first begun

theorem NeedsLead.map {read : List Char → Option α} (needs : NeedsLead words read) (f : α → β) :
    NeedsLead words fun s => (read s).map f := by
  intro s found readable
  obtain ⟨first, begun, _⟩ := map_eq_some_iff.mp readable
  exact needs s first begun

theorem NeedsLead.findSome? {read : String → List Char → Option α}
    (each : ∀ word ∈ words, NeedsLead [word] (read word)) :
    NeedsLead words fun s => words.findSome? fun word => read word s := by
  intro s found readable
  obtain ⟨word, member, success⟩ := exists_of_findSome?_eq_some readable
  obtain ⟨own, same, lead⟩ := each word member s found success
  rw [mem_singleton.mp same] at lead
  exact ⟨word, member, lead⟩

theorem needsLead_after (word : String) : NeedsLead [word] (after? word) :=
  fun _ _ found => ⟨word, mem_singleton_self word, prefix_of_after? found⟩

theorem needsLead_signed (word : String) :
    NeedsLead [word, "#" ++ word] fun s => after? word (skipSign '#' s) := by
  intro s rest found
  have text := after?_eq_some_iff.mp found
  unfold skipSign at text
  split at text
  next c tail =>
    split at text
    next sign => exact ⟨"#" ++ word, by simp, rest, by simp [sign, text]⟩
    · exact ⟨word, mem_cons_self, rest, text.symm⟩
  · exact ⟨word, mem_cons_self, rest, text.symm⟩

theorem modifiers_eq_or_prefix (base : RuleBase) (s : List Char) :
    base.modifiers = "" ∨ ∃ word ∈ modifierWords, word.toList <+: base.modifiers.toList ++ s := by
  unfold RuleBase.modifiers
  cases base.audit with
  | true =>
    refine .inr ⟨"audit", by decide, ' ' :: (base.decision.word.toList ++ s), ?_⟩
    simp
  | false =>
    cases base.decision with
    | unstated => exact .inl rfl
    | allow => exact .inr ⟨"allow", by decide, ' ' :: s, rfl⟩
    | deny => exact .inr ⟨"deny", by decide, ' ' :: s, rfl⟩

variable {read : List Char → Option (α × String)} {statement : Statement α}

theorem NeedsLead.unmodified {found : α × String} (needs : NeedsLead kind.leads read)
    (readable : read s = some found) : Unmodified s := by
  obtain ⟨word, member, lead⟩ := needs s found readable
  intro other modifier
  exact (kind.leads_apart_modifiers member modifier).symm.notStarts lead

theorem NeedsLead.exists_behind (needs : NeedsLead kind.leads read)
    (found : withModifiers read line = some statement) :
    ∃ s, Behind line statement.audit statement.decision s ∧
      read s = some (statement.parts, statement.comment) :=
  Line.exists_behind found fun _ readable => needs.unmodified readable

theorem NeedsLead.behind (needs : NeedsLead kind.leads read)
    (found : withoutModifiers read line = some statement) :
    Behind line statement.audit statement.decision (trimStart line) ∧
      read (trimStart line) = some (statement.parts, statement.comment) := by
  obtain ⟨readable, audit, decision⟩ := withoutModifiers_eq_some found
  rw [audit, decision]
  exact ⟨behind_of_unmodified (needs.unmodified readable), readable⟩

end Grammars

theorem Freeform.keywords_apart {keyword other : String} (member : keyword ∈ keywords)
    (among : other ∈ keywords) (differs : other ≠ keyword) : Apart other.toList keyword.toList := by
  have all : ∀ keyword ∈ keywords, ∀ other ∈ keywords, other ≠ keyword →
      Apart other.toList keyword.toList := by decide
  exact all keyword member other among differs

namespace Rule

variable {result : Checked Rule}

theorem readBy_eq_none {α : Type} {read : List Char → Option (Statement α)}
    {make : RuleBase → α → Checked RuleBody} (unread : read line = none) :
    readBy read make line = none := by
  simp [readBy, unread]

theorem readBy_trimStart {α : Type} {read : List Char → Option (Statement α)}
    (make : RuleBase → α → Checked RuleBody) (same : read (trimStart line) = read line) :
    readBy read make (trimStart line) = readBy read make line := by
  simp only [readBy, Statement.base, same, trim_trimStart]

theorem readAs?_trimStart (kind : RuleKind) (line : List Char) :
    readAs? kind (trimStart line) = readAs? kind line := by
  cases kind <;> simp only [readAs?, Abi.read?, Inclusion.read?, Reference.read?]
  case abi =>
    simp only [Abi.ofParts, trim_trimStart]
    exact readBy_trimStart _ (withoutModifiers_trimStart line)
  case aliasing | assignment | boolean | inclusion | rlimit =>
    exact readBy_trimStart _ (withoutModifiers_trimStart line)
  case capability | changeProfile | file | freeform =>
    exact readBy_trimStart _ (withModifiers_trimStart line)
  all_goals exact readBy_trimStart _ (keywordStatement_trimStart _ _ line)

theorem parse?_indented {blanks : List Char} (blank : ∀ c ∈ blanks, isBlank c) (s : List Char) :
    parse? (String.ofList (blanks ++ s)) = parse? (String.ofList s) := by
  have same : ∀ kind, readAs? kind (blanks ++ s) = readAs? kind s := by
    intro kind
    rw [← readAs?_trimStart kind (blanks ++ s), trimStart_append_of_blank blank, readAs?_trimStart]
  simp only [parse?, String.toList_ofList, same]

/-- The statement of the line starts, behind the modifiers, with a word of the kind. -/
def Leads (kind : RuleKind) (line : List Char) : Prop :=
  ∃ audit decision s, Behind line audit decision s ∧ ∃ word ∈ kind.leads, word.toList <+: s

section Words

variable {α : Type} {read : List Char → Option (α × String)}
  {make : RuleBase → α → Checked RuleBody} (needs : NeedsLead kind.leads read)
include needs

theorem leads_of_withModifiers (found : readBy (withModifiers read) make line = some result) :
    Leads kind line := by
  obtain ⟨statement, success, _⟩ := map_eq_some_iff.mp found
  obtain ⟨s, behind, readable⟩ := needs.exists_behind success
  exact ⟨_, _, s, behind, needs s _ readable⟩

theorem leads_of_withoutModifiers (found : readBy (withoutModifiers read) make line = some result) :
    Leads kind line := by
  obtain ⟨statement, success, _⟩ := map_eq_some_iff.mp found
  obtain ⟨behind, readable⟩ := needs.behind success
  exact ⟨_, _, _, behind, needs _ _ readable⟩

end Words

theorem leads_of_readAs? (keyword : kind ≠ .file) (found : readAs? kind line = some result) :
    Leads kind line := by
  cases kind <;> simp only [readAs?] at found
  case file => exact absurd rfl keyword
  case abi => exact leads_of_withoutModifiers ((needsLead_signed "abi").bind _) found
  case inclusion => exact leads_of_withoutModifiers ((needsLead_signed "include").bind _) found
  case aliasing =>
    exact leads_of_withoutModifiers (((needsLead_after "alias").bind _).map _) found
  case boolean => exact leads_of_withoutModifiers (((needsLead_after "$").bind _).bind _) found
  case assignment =>
    exact leads_of_withoutModifiers (((needsLead_after "@\x7b").bind _).bind _) found
  case rlimit =>
    exact leads_of_withoutModifiers ((((needsLead_after "set").bind _).bind _).bind _) found
  case freeform =>
    refine leads_of_withModifiers (NeedsLead.findSome? fun keyword _ => ?_) found
    exact (needsLead_after keyword).bind _
  all_goals exact leads_of_withModifiers ((needsLead_after _).bind _) found

theorem Leads.unique {other : RuleKind} (leads : Leads kind line) (others : Leads other line) :
    other = kind := by
  refine Decidable.byContradiction fun differs => ?_
  obtain ⟨_, _, s, behind, word, member, lead⟩ := leads
  obtain ⟨_, _, t, behindOther, first, among, otherLead⟩ := others
  obtain ⟨_, _, rfl⟩ := behind.unique behindOther
  exact (RuleKind.leads_apart differs member among).notStarts lead otherLead

theorem readAs?_eq_none (keyword : kind ≠ .file) (base : RuleBase) (starts : StartsSolid s)
    (unmodified : Unmodified s) (absent : ∀ word ∈ kind.leads, ¬word.toList <+: s) :
    readAs? kind (base.modifiers.toList ++ s) = none := by
  cases found : readAs? kind (base.modifiers.toList ++ s) with
  | none => rfl
  | some result =>
    obtain ⟨_, _, t, behind, word, member, lead⟩ := leads_of_readAs? keyword found
    obtain ⟨_, _, rfl⟩ := (behind_modifiers base starts unmodified).unique behind
    exact absurd lead (absent word member)

theorem parse?_of_readAs? (found : readAs? kind line = some result)
    (others : ∀ other, other ≠ kind → other ≠ .file → readAs? other line = none) :
    parse? (String.ofList line) = some result := by
  have order : ∃ before behind, readingOrder = before ++ kind :: behind ∧
      ∀ other ∈ before, other ≠ kind ∧ other ≠ .file := by
    refine ⟨readingOrder.takeWhile (· != kind), (readingOrder.dropWhile (· != kind)).tail, ?_, ?_⟩
    · cases kind <;> rfl
    · cases kind <;> decide
  obtain ⟨before, behind, split, earlier⟩ := order
  unfold parse?
  rw [String.toList_ofList]
  refine findSome?_eq_some_iff.mpr ⟨before, kind, behind, split, found, ?_⟩
  intro other member
  exact others other (earlier other member).1 (earlier other member).2

/-! ## Canonical lines -/

def statementText (rule : Rule) : List Char :=
  (rule.body.text ++ rule.kind.terminator ++ rule.base.comment).toList

def ShowsModifiers (rule : Rule) : Prop :=
  rule.kind.showsModifiers = false → rule.base.modifiers = ""

theorem ShowsModifiers.canonical_eq (shows : rule.ShowsModifiers) :
    rule.canonical.toList = rule.base.modifiers.toList ++ rule.statementText := by
  have written : (if rule.kind.showsModifiers then rule.base.modifiers else "") = rule.base.modifiers := by
    split
    · rfl
    next hidden => exact (shows (Bool.eq_false_iff.mpr hidden)).symm
  simp only [canonical, statementText, written, String.toList_append, append_assoc]

/-- The canonical line is complete, and is read with the given result. -/
structure Stated (rule : Rule) (result : Checked Rule) : Prop where
  tidy : Tidy rule.canonical.toList
  form : LineForm.ofLine rule.canonical.toList = .statement
  read : parse? rule.canonical = some result

/-- The canonical line of a rule that stems from the given text is read with the given result.  It is
one line, and a statement, where the text is. -/
structure Recovered (rule : Rule) (line : List Char) (result : Checked Rule) : Prop where
  starts : StartsSolid rule.canonical.toList
  ends : EndsSolid rule.canonical.toList
  oneLine : '\n' ∉ line → '\n' ∉ rule.canonical.toList
  form : Tidy line → LineForm.ofLine line = .statement →
    LineForm.ofLine rule.canonical.toList = .statement
  read : parse? rule.canonical = some result

theorem Recovered.stated (recovered : rule.Recovered line result) (tidy : Tidy line)
    (form : LineForm.ofLine line = .statement) : rule.Stated result :=
  ⟨⟨recovered.starts, recovered.ends, recovered.oneLine tidy.oneLine⟩, recovered.form tidy form,
    recovered.read⟩

theorem startsSolid_of_keyword (member : word ∈ kind.keywords) (lead : word.toList <+: s) :
    StartsSolid s := by
  have all : ∀ kind ∈ RuleKind.all, ∀ word ∈ kind.keywords, (word.toList.head?.any isSolid) := by decide
  obtain ⟨rest, rfl⟩ := lead
  have solid := all kind (RuleKind.mem_all kind) word member
  cases text : word.toList with
  | nil => simp [text] at solid
  | cons c tail =>
    rw [text] at solid
    exact ⟨c, tail ++ rest, rfl, solid⟩

theorem endsSolid_statementText (comment : TrailingComment rule.base.comment)
    (ends : EndsSolid (rule.body.text ++ rule.kind.terminator).toList) :
    EndsSolid rule.statementText := by
  unfold statementText
  rw [String.toList_append]
  rcases comment with none | ⟨rest, text, commentEnds, _⟩
  · simpa [none] using ends
  · rw [text]
    exact (commentEnds.cons ' ').append _

theorem oneLine_statementText (comment : TrailingComment rule.base.comment)
    (oneLine : '\n' ∉ rule.body.text.toList) : '\n' ∉ rule.statementText := by
  have inTerminator : '\n' ∉ rule.kind.terminator.toList := by
    cases rule.kind <;> decide
  simp [statementText, oneLine, inTerminator, comment.oneLine]

theorem oneLine_modifiers (base : RuleBase) : '\n' ∉ base.modifiers.toList := by
  unfold RuleBase.modifiers
  cases base.audit <;> cases base.decision <;> decide

/-- What is needed of a rule that stems from the given text to read its canonical line again, apart
from its body. -/
structure Written (rule : Rule) (line : List Char) : Prop where
  shows : rule.ShowsModifiers
  stated : rule.base.Stated
  comment : TrailingComment rule.base.comment
  ends : EndsSolid (rule.body.text ++ rule.kind.terminator).toList
  oneLine : '\n' ∉ line → '\n' ∉ rule.body.text.toList

namespace Written

variable (written : rule.Written line)
include written

theorem startsSolid_canonical (starts : StartsSolid rule.statementText) :
    StartsSolid rule.canonical.toList := by
  rw [written.shows.canonical_eq]
  exact startsSolid_modifiers rule.base starts

theorem endsSolid_canonical : EndsSolid rule.canonical.toList := by
  rw [written.shows.canonical_eq]
  exact (endsSolid_statementText written.comment written.ends).append _

theorem oneLine_canonical (oneLine : '\n' ∉ line) : '\n' ∉ rule.canonical.toList := by
  rw [written.shows.canonical_eq]
  simp [oneLine_modifiers, oneLine_statementText written.comment (written.oneLine oneLine)]

end Written

theorem parse?_canonical (shows : rule.ShowsModifiers) (member : word ∈ rule.kind.keywords)
    (lead : word.toList <+: rule.statementText)
    (found : readAs? rule.kind rule.canonical.toList = some result) :
    parse? rule.canonical = some result := by
  have unmodified : Unmodified rule.statementText := fun other modifier =>
    (rule.kind.keywords_apart member (mem_append_left _ modifier)).notStarts lead
  rw [← String.ofList_toList (s := rule.canonical)]
  refine parse?_of_readAs? found ?_
  intro other differs keyword
  rw [shows.canonical_eq]
  refine readAs?_eq_none keyword rule.base (startsSolid_of_keyword member lead) unmodified ?_
  intro own among
  exact (RuleKind.leads_apart differs (RuleKind.mem_leads member) among).notStarts lead

theorem recovered_of_keyword (written : rule.Written line) (member : word ∈ rule.kind.keywords)
    (lead : word.toList <+: rule.statementText)
    (found : readAs? rule.kind rule.canonical.toList = some result) : rule.Recovered line result := by
  have starts := startsSolid_of_keyword member lead
  have noBlock : ∀ other ∈ ["/", "\"", "profile", "^", "hat", "\x7d", "if", "#"],
      ¬other.toList <+: rule.base.modifiers.toList ++ rule.statementText := by
    intro other among
    rcases modifiers_eq_or_prefix rule.base rule.statementText with none | ⟨first, modifier, modified⟩
    · rw [none]
      exact (rule.kind.keywords_apart member (mem_append_right _ among)).notStarts lead
    · have apart : ∀ other ∈ ["/", "\"", "profile", "^", "hat", "\x7d", "if", "#"],
          ∀ first ∈ modifierWords, Apart other.toList first.toList := by decide
      exact (apart other among first modifier).notStarts modified
  refine ⟨written.startsSolid_canonical starts, written.endsSolid_canonical, written.oneLine_canonical,
    fun _ _ => ?_, parse?_canonical written.shows member lead found⟩
  have whole := startsSolid_modifiers rule.base starts
  rw [written.shows.canonical_eq]
  refine LineForm.ofLine_eq_statement whole ?_ ?_
  · exact LineForm.header?_eq_none whole (noBlock "/" (by decide)) (noBlock "\"" (by decide))
      (noBlock "profile" (by decide))
  · intro other block
    refine noBlock other ?_
    revert other
    decide

/-- The rule with its canonical form for the text from which it was read. -/
def rewritten (rule : Rule) : Rule :=
  { rule with base := { rule.base with written := some rule.canonical } }

/-- The canonical line gives the rule again. -/
abbrev Restored (rule : Rule) (line : List Char) : Prop := rule.Recovered line (.ok rule.rewritten)

/-- The canonical line starts, behind the modifiers, with a word of its kind. -/
structure Keyworded (rule : Rule) (line : List Char) : Prop extends Written rule line where
  lead : ∃ word ∈ rule.kind.keywords, word.toList <+: rule.statementText

theorem modifiers_eq_empty {base : RuleBase} (audit : base.audit = false)
    (decision : base.decision = .unstated) : base.modifiers = "" := by
  simp [RuleBase.modifiers, audit, decision, Decision.word]

theorem eq_unstated_of_modifiers {base : RuleBase} (none : base.modifiers = "") :
    base.audit = false ∧ base.decision = .unstated := by
  have all : ∀ audit decision, (if audit then "audit " else "") ++ Decision.word decision = "" →
      audit = false ∧ decision = .unstated := by
    intro audit decision
    cases audit <;> cases decision <;> decide
  exact all base.audit base.decision none

theorem endsSolid_comma (comma : rule.kind.terminator = ",") :
    EndsSolid (rule.body.text ++ rule.kind.terminator).toList :=
  ⟨rule.body.text.toList, ',', by simp [comma], by decide⟩

theorem Keyworded.starts (keyworded : rule.Keyworded line) : StartsSolid rule.statementText := by
  obtain ⟨word, member, lead⟩ := keyworded.lead
  exact startsSolid_of_keyword member lead

section Grammars

variable {α : Type} {make : RuleBase → α → Checked RuleBody} {parts : α}
  {read : List Char → Option (α × String)}

theorem Keyworded.withModifiers_canonical (keyworded : rule.Keyworded line)
    (found : read rule.statementText = some (parts, comment)) :
    withModifiers read rule.canonical.toList =
      some ⟨rule.base.audit, rule.base.decision, comment, parts⟩ := by
  obtain ⟨word, member, lead⟩ := keyworded.lead
  have unmodified : Unmodified rule.statementText := fun other modifier =>
    (rule.kind.keywords_apart member (mem_append_left _ modifier)).notStarts lead
  rw [keyworded.shows.canonical_eq]
  exact withModifiers_modifiers rule.base keyworded.starts unmodified found

theorem ShowsModifiers.withoutModifiers_canonical (shows : rule.ShowsModifiers)
    (starts : StartsSolid rule.statementText) (audit : rule.base.audit = false)
    (decision : rule.base.decision = .unstated)
    (found : read rule.statementText = some (parts, comment)) :
    withoutModifiers read rule.canonical.toList =
      some ⟨rule.base.audit, rule.base.decision, comment, parts⟩ := by
  have text : rule.canonical.toList = rule.statementText := by
    rw [shows.canonical_eq, modifiers_eq_empty audit decision]
    rfl
  rw [text, withoutModifiers, trimStart_of_startsSolid starts, found, audit, decision]
  rfl

theorem readBy_canonical {read : List Char → Option (Statement α)} (stated : rule.base.Stated)
    (starts : StartsSolid rule.canonical.toList) (ends : EndsSolid rule.canonical.toList)
    (found : read rule.canonical.toList =
      some ⟨rule.base.audit, rule.base.decision, rule.base.comment, parts⟩) :
    readBy read make rule.canonical.toList =
      some ((make rule.rewritten.base parts).map fun body => ⟨rule.rewritten.base, body⟩) := by
  have whole : trim rule.canonical.toList = rule.canonical.toList := by
    rw [trim, trimStart_of_startsSolid starts, trimEnd_of_endsSolid ends]
  simp [readBy, found, Statement.base_decision _ stated, rewritten, whole]

theorem Keyworded.recovered_rewritten {read : List Char → Option (Statement α)} (keyworded : rule.Keyworded line)
    (isKind : rule.kind = kind)
    (reader : readAs? kind rule.canonical.toList = readBy read make rule.canonical.toList)
    (found : read rule.canonical.toList =
      some ⟨rule.base.audit, rule.base.decision, rule.base.comment, parts⟩)
    (made : make rule.rewritten.base parts = .ok rule.body) : rule.Restored line := by
  obtain ⟨word, member, lead⟩ := keyworded.lead
  refine recovered_of_keyword keyworded.toWritten member lead ?_
  rw [isKind, reader, readBy_canonical keyworded.stated (keyworded.startsSolid_canonical keyworded.starts)
    keyworded.endsSolid_canonical found, made]
  rfl

theorem readBy_withModifiers_eq_ok (success : readBy (withModifiers read) make line = some (.ok rule)) :
    ∃ s parts, s <:+ trimStart line ∧ read s = some (parts, rule.base.comment) ∧
      make rule.base parts = .ok rule.body ∧ rule.base.Stated ∧
      (rule.base.audit = false → rule.base.decision = .unstated → s = trimStart line) := by
  obtain ⟨statement, found, base, made⟩ := readBy_eq_ok success
  obtain ⟨s, suffix, readable, whole⟩ := withModifiers_eq_some found
  rw [base, statement.decision_base]
  exact ⟨s, statement.parts, suffix, readable, made, statement.stated_base line, whole⟩

theorem readBy_withoutModifiers_eq_ok (success : readBy (withoutModifiers read) make line = some (.ok rule)) :
    ∃ parts, read (trimStart line) = some (parts, rule.base.comment) ∧
      make rule.base parts = .ok rule.body ∧ rule.base.Stated ∧
      rule.base.audit = false ∧ rule.base.decision = .unstated := by
  obtain ⟨statement, found, base, made⟩ := readBy_eq_ok success
  obtain ⟨readable, audit, decision⟩ := withoutModifiers_eq_some found
  rw [base, statement.decision_base]
  exact ⟨statement.parts, readable, made, statement.stated_base line, audit, decision⟩

end Grammars

/-! ## Statements of a keyword and a body -/

section Bodies

variable {part : List Char} {allowed : Char → Bool} {make : RuleBase → List Char → Checked RuleBody}

theorem readBy_keywordStatement_eq_ok
    (success : readBy (keywordStatement word allowed) make line = some (.ok rule)) :
    ∃ body, body ⊆ line ∧ (∃ s, body? allowed s = some (body, rule.base.comment)) ∧
      make rule.base body = .ok rule.body ∧ rule.base.Stated ∧
      TrailingComment rule.base.comment := by
  obtain ⟨s, body, suffix, readable, made, stated, _⟩ := readBy_withModifiers_eq_ok success
  obtain ⟨t, behind, found⟩ := bind_eq_some_iff.mp readable
  obtain ⟨⟨rest, split, ending⟩, _⟩ := body?_eq_some found
  refine ⟨body, ?_, ⟨t, found⟩, made, stated, trailingComment_of_commaEnding? ending⟩
  intro c member
  refine (trimStart_sublist line).subset (suffix.subset ((suffix_of_after? behind).subset ?_))
  rw [split]
  exact mem_append_left _ member

theorem terminator_of_showsModifiers (shows : kind.showsModifiers) : kind.terminator = "," := by
  cases kind <;> first | rfl | cases shows

theorem showsModifiers_of_kind (shows : rule.kind.showsModifiers) : rule.ShowsModifiers := by
  intro hidden
  rw [shows] at hidden
  cases hidden

theorem statementText_of_comma {text : List Char} (comma : rule.kind.terminator = ",")
    (bodyText : rule.body.text.toList = word.toList ++ text) :
    rule.statementText = word.toList ++ (text ++ ',' :: rule.base.comment.toList) := by
  simp [statementText, comma, bodyText]

theorem keyworded_of_comma {text : List Char} (shows : rule.ShowsModifiers)
    (comma : rule.kind.terminator = ",") (member : word ∈ rule.kind.keywords)
    (bodyText : rule.body.text.toList = word.toList ++ text) (stated : rule.base.Stated)
    (comment : TrailingComment rule.base.comment) (oneLine : '\n' ∉ line → '\n' ∉ text) :
    rule.Keyworded line := by
  refine ⟨⟨shows, stated, comment, endsSolid_comma comma, fun inLine => ?_⟩, word, member, ?_⟩
  · have plain : ∀ kind ∈ RuleKind.all, ∀ word ∈ kind.keywords, '\n' ∉ word.toList := by decide
    rw [bodyText, mem_append, not_or]
    exact ⟨plain _ (RuleKind.mem_all _) word member, oneLine inLine⟩
  · rw [statementText_of_comma comma bodyText]
    exact prefix_append _ _

variable (shows : rule.kind.showsModifiers = true) (member : word ∈ rule.kind.keywords)
  (bodyText : rule.body.text.toList = word.toList ++ spacedPart part)
include shows member bodyText

theorem keyworded_of_body (stated : rule.base.Stated)
    (comment : TrailingComment rule.base.comment) (oneLine : '\n' ∉ part) : rule.Keyworded line := by
  refine keyworded_of_comma (showsModifiers_of_kind shows) (terminator_of_showsModifiers shows) member
    bodyText stated comment fun _ newline => ?_
  rcases mem_of_mem_spacedPart newline with space | inPart
  · cases space
  · exact oneLine inPart

omit member in
theorem statementText_of_body :
    rule.statementText = word.toList ++ (spacedPart part ++ ',' :: rule.base.comment.toList) :=
  statementText_of_comma (terminator_of_showsModifiers shows) bodyText

theorem recovered_rewritten_of_body (isKind : rule.kind = kind) (stated : rule.base.Stated)
    (comment : TrailingComment rule.base.comment) (plain : PlainBody part)
    (reader : readAs? kind rule.canonical.toList =
      readBy (keywordStatement word notNewline) make rule.canonical.toList)
    (made : make rule.rewritten.base (spacedPart part) = .ok rule.body) : rule.Restored line := by
  have keyworded : rule.Keyworded line :=
    keyworded_of_body shows member bodyText stated comment (oneLine_of_tidy plain.tidy)
  refine keyworded.recovered_rewritten isKind reader (keyworded.withModifiers_canonical ?_) made
  rw [statementText_of_body shows bodyText, after?_append, bind_some, plain.body?_eq comment]

end Bodies

end Rule

end ArmorPolicy
