import ArmorPolicy.Proofs.Line.Comment
import ArmorPolicy.Proofs.Rule.Capability
import ArmorPolicy.Proofs.Rule.Reference
import ArmorPolicy.Proofs.Rule.Rlimit

/-!
# Statements with a comment behind them

Each grammar reads a line without a comment as before when a comment is put behind it.  A grammar
whose pieces end as soon as they can has found its end before the comment; one whose pieces reach as
far as they can is stopped by the space or the sign before the comment.  The names of capabilities
are stopped by neither.
-/

namespace ArmorPolicy

open List Option Text Line

variable {line rest s unit : List Char} {rule : Rule} {text : List Char}

def Freeform.readParts? (s : List Char) : Option (Parts × String) :=
  keywords.findSome? fun keyword =>
    (after? keyword s).bind fun s =>
      (body? (· != '#') s).map fun (body, comment) => (⟨keyword, body⟩, comment)

theorem Freeform.read?_eq : read? = withModifiers readParts? := rfl

namespace Rule

/-- A rule as it is read from its line with a comment behind it. -/
def commented (rule : Rule) (line text : List Char) : Rule :=
  { rule with base := { rule.base with
      comment := kept text, written := some (String.ofList (trim (line ++ trailing text))) } }

/-- A comment behind a line of this kind is kept and changes nothing else. -/
def TakesComment (kind : RuleKind) : Prop :=
  ∀ {line text : List Char} {rule : Rule}, '\n' ∉ text → rule.base.comment = "" →
    readAs? kind line = some (.ok rule) →
    readAs? kind (line ++ trailing text) = some (.ok (rule.commented line text))

/-! ## Reading and making -/

section Grammars

variable {α : Type}

/-- Making a rule looks at its modifiers and parts, not at its comment and text. -/
def HeedsModifiers (make again : RuleBase → α → Checked RuleBody) : Prop :=
  ∀ base other parts body, base.audit = other.audit → base.deny = other.deny →
    base.allowWord = other.allowWord → make base parts = .ok body → again other parts = .ok body

theorem readBy_commented {read : List Char → Option (Statement α)}
    {make again : RuleBase → α → Checked RuleBody} (heeds : HeedsModifiers make again)
    (success : readBy read make line = some (.ok rule)) (plain : rule.base.comment = "")
    (found : ∀ statement, read line = some statement → statement.comment = "" →
      make rule.base statement.parts = .ok rule.body →
      ∃ parts, read (line ++ trailing text) = some { statement with comment := kept text, parts } ∧
        make rule.base parts = .ok rule.body) :
    readBy read again (line ++ trailing text) = some (.ok (rule.commented line text)) := by
  obtain ⟨statement, readable, base, made⟩ := readBy_eq_ok success
  have bare : statement.comment = "" := by
    rw [base] at plain
    exact plain
  rw [← base] at made
  obtain ⟨parts, commented, madeAgain⟩ := found statement readable bare made
  have heeded : again (Statement.base { statement with comment := kept text, parts }
      (line ++ trailing text)) parts = .ok rule.body := by
    rw [base] at madeAgain
    exact heeds (statement.base line) _ parts rule.body rfl rfl rfl madeAgain
  simp only [readBy, commented, map_some, heeded, Except.map, Option.some.injEq, Except.ok.injEq]
  simp only [Rule.commented, base, Statement.base]

variable (kind : RuleKind) {read : List Char → Option (α × String)}

theorem ne_nil_of_needsLead {found : α × String} (needs : NeedsLead kind.leads read)
    (readable : read s = some found) : s ≠ [] := by
  have all : ∀ kind ∈ RuleKind.all, ∀ word ∈ kind.leads, word.toList ≠ [] := by decide
  obtain ⟨word, member, lead⟩ := needs s found readable
  exact lead.ne_nil (all kind (RuleKind.mem_all kind) word member)

variable {make again : RuleBase → α → Checked RuleBody} (needs : NeedsLead kind.leads read)
  (heeds : HeedsModifiers make again) (plain : rule.base.comment = "")
include needs heeds plain

theorem readBy_withModifiers_commented (success : readBy (withModifiers read) make line = some (.ok rule))
    (keeps : ∀ audit decision s parts, Behind line audit decision s → read s = some (parts, "") →
      read (s ++ trailing text) = some (parts, kept text)) :
    readBy (withModifiers read) again (line ++ trailing text) = some (.ok (rule.commented line text)) := by
  refine readBy_commented heeds success plain fun statement found bare made => ⟨statement.parts, ?_, made⟩
  obtain ⟨s, behind, readable⟩ := needs.exists_behind found
  have commented : Behind (line ++ trailing text) _ _ (s ++ trailing text) :=
    behind.append_trailing (ne_nil_of_needsLead _ needs readable)
  rw [bare] at readable
  exact commented.withModifiers_eq (keeps _ _ s _ behind readable)

theorem readBy_withoutModifiers_commented
    (success : readBy (withoutModifiers read) make line = some (.ok rule))
    (keeps : ∀ s parts, s ≠ [] → make rule.base parts = .ok rule.body → read s = some (parts, "") →
      ∃ others, read (s ++ trailing text) = some (others, kept text) ∧ make rule.base others = .ok rule.body) :
    readBy (withoutModifiers read) again (line ++ trailing text) =
      some (.ok (rule.commented line text)) := by
  refine readBy_commented heeds success plain fun statement found bare made => ?_
  obtain ⟨readable, audit, decision⟩ := withoutModifiers_eq_some found
  have nonempty := ne_nil_of_needsLead _ needs readable
  rw [bare] at readable
  obtain ⟨others, readAgain, madeAgain⟩ := keeps _ _ nonempty made readable
  refine ⟨others, ?_, madeAgain⟩
  rw [withoutModifiers, trimStart_append nonempty, readAgain, audit, decision]
  rfl

end Grammars

/-! ## Keywords with a body -/

theorem keywordStatement_commented {kind : RuleKind} {word : String} {allowed : Char → Bool}
    {make : List Char → Checked RuleBody} (reader : ∀ line, readAs? kind line =
      readBy (keywordStatement word allowed) (fun _ parts => make parts) line)
    (single : kind.leads = [word]) : TakesComment kind := by
  intro line text rule oneLine plain success
  rw [reader] at success ⊢
  have needs : NeedsLead kind.leads fun s => (after? word s).bind (body? allowed) := by
    rw [single]
    exact (needsLead_after word).bind _
  refine readBy_withModifiers_commented _ needs (fun _ _ _ _ _ _ _ made => made) plain success
    fun _ _ s body _ readable => ?_
  obtain ⟨t, lead, isBody⟩ := bind_eq_some_iff.mp readable
  exact bind_eq_some_iff.mpr ⟨_, after?_append_right lead _, body?_append_trailing oneLine isBody⟩

theorem freeform_commented : TakesComment .freeform := by
  intro line text rule oneLine plain success
  simp only [readAs?, Freeform.read?_eq] at success ⊢
  have needs : NeedsLead RuleKind.freeform.leads Freeform.readParts? :=
    NeedsLead.findSome? fun keyword _ => (needsLead_after keyword).bind _
  refine readBy_withModifiers_commented _ needs (fun _ _ _ _ _ _ _ made => made) plain success
    fun _ _ s parts _ readable => ?_
  obtain ⟨keyword, member, reading⟩ := exists_of_findSome?_eq_some readable
  obtain ⟨t, lead, reading⟩ := bind_eq_some_iff.mp reading
  obtain ⟨⟨body, _⟩, isBody, ⟨⟩⟩ := map_eq_some_iff.mp reading
  have again := after?_append_right lead (trailing text)
  refine findSome?_of_unique member ?_ ?_
  · simp [again, body?_append_trailing oneLine isBody]
  · intro other among differs
    rw [after?_eq_none ((Freeform.keywords_apart member among differs).notStarts (prefix_of_after? again)),
      bind_none]

end Rule

/-! ## Capabilities -/

/-- Some comma in the text could end a line. -/
def Line.EndsLine (text : List Char) : Prop := ∃ suffix, suffix <:+ text ∧ (commaEnding? suffix).isSome = true

namespace Capability

def readNames? (s : List Char) : Option (Option (List Char) × String) :=
  ((names? s).map fun (names, comment) => (some names, comment)).or
    ((commaEnding? s).map fun comment => (none, comment))

/-- The names begin behind a blank. -/
def StartsBlank (s : List Char) : Prop := ∃ c rest, s = c :: rest ∧ isBlank c = true

theorem names?_of_startsBlank (starts : StartsBlank s) : names? s = namesFrom? false s := by
  obtain ⟨c, rest, rfl, blank⟩ := starts
  simp [names?, blank]

theorem names?_eq_none (starts : ¬StartsBlank s) : names? s = none := by
  cases s with
  | nil => rfl
  | cons c rest =>
    have solid : isBlank c ≠ true := fun blank => starts ⟨c, rest, rfl, blank⟩
    simp [names?, solid]

theorem commaEnding?_within (free : ¬EndsLine text) {start suffix : List Char}
    (split : s ++ trailing text = start ++ suffix) :
    (∃ u, s = start ++ u ∧ suffix = u ++ trailing text) ∨ commaEnding? suffix = none := by
  rcases start_trailing split with ⟨u, rfl, rfl⟩ | ⟨_, rfl⟩ | ⟨middle, _, rfl⟩
  · exact .inl ⟨u, rfl, rfl⟩
  · exact .inr (commaEnding?_of_solid (by decide) (by decide) text)
  · exact .inr (not_isSome_iff_eq_none.mp fun ends => free ⟨suffix, suffix_append middle suffix, ends⟩)

section Names

variable (oneLine : '\n' ∉ text) (free : ¬EndsLine text) {named : Bool} {part : List Char}

include oneLine free in
theorem namesFrom?_append_trailing (found : namesFrom? named s = some (part, "")) :
    namesFrom? named (s ++ trailing text) = some (part, kept text) := by
  obtain ⟨rest, rfl, ends, ending, later⟩ := namesFrom?_eq_some found
  rw [append_assoc]
  refine namesFrom?_append ends (commaEnding?_append_trailing oneLine ending) ?_
  intro start suffix split startEnds
  rcases commaEnding?_within free split with ⟨u, rfl, rfl⟩ | none
  · exact commaEnding?_append_trailing_eq_none (later start u rfl startEnds)
  · exact none

include free in
theorem namesFrom?_append_trailing_eq_none (unread : namesFrom? named s = none) :
    namesFrom? named (s ++ trailing text) = none := by
  rw [namesFrom?_eq_none_iff] at unread ⊢
  intro start suffix split ends
  rcases commaEnding?_within free split with ⟨u, rfl, rfl⟩ | none
  · exact commaEnding?_append_trailing_eq_none (unread start u rfl ends)
  · exact none

end Names

theorem readNames?_append_trailing (oneLine : '\n' ∉ text) {names : Option (List Char)}
    (free : StartsBlank s → ¬EndsLine text) (found : readNames? s = some (names, "")) :
    readNames? (s ++ trailing text) = some (names, kept text) := by
  have nonempty : s ≠ [] := by
    rintro rfl
    cases found
  have sameStart : StartsBlank (s ++ trailing text) ↔ StartsBlank s := by
    obtain ⟨c, rest, rfl⟩ := exists_cons_of_ne_nil nonempty
    simp [StartsBlank]
  unfold readNames? at found ⊢
  rcases or_eq_some_iff.mp found with named | ⟨unnamed, bare⟩
  · obtain ⟨⟨part, _⟩, isNames, ⟨⟩⟩ := map_eq_some_iff.mp named
    by_cases starts : StartsBlank s
    · rw [names?_of_startsBlank starts] at isNames
      rw [names?_of_startsBlank (sameStart.mpr starts),
        namesFrom?_append_trailing oneLine (free starts) isNames]
      rfl
    · rw [names?_eq_none starts] at isNames
      cases isNames
  · obtain ⟨_, ending, ⟨⟩⟩ := map_eq_some_iff.mp bare
    have none : names? (s ++ trailing text) = none := by
      by_cases starts : StartsBlank s
      · rw [map_eq_none_iff, names?_of_startsBlank starts] at unnamed
        rw [names?_of_startsBlank (sameStart.mpr starts)]
        exact namesFrom?_append_trailing_eq_none (free starts) unnamed
      · exact names?_eq_none (mt sameStart.mp starts)
    rw [none, commaEnding?_append_trailing oneLine ending]
    rfl

end Capability

/-- The names of the line reach into a comment behind it, up to its last comma that can end a line. -/
def Rule.ReachesComment (line text : List Char) : Prop :=
  EndsLine text ∧ ∃ audit decision s,
    Behind line audit decision ("capability".toList ++ s) ∧ Capability.StartsBlank s

theorem Capability.needsLead : NeedsLead RuleKind.capability.leads fun s =>
    (after? "capability" s).bind readNames? :=
  (needsLead_after "capability").bind _

theorem Rule.capability_commented (oneLine : '\n' ∉ text) (plain : rule.base.comment = "")
    (free : ¬ReachesComment line text) (success : readAs? .capability line = some (.ok rule)) :
    readAs? .capability (line ++ trailing text) = some (.ok (rule.commented line text)) := by
  simp only [readAs?] at success ⊢
  refine readBy_withModifiers_commented .capability Capability.needsLead (fun _ _ _ _ _ _ _ made => made) plain
    success fun audit decision s names behind readable => ?_
  obtain ⟨t, lead, reading⟩ := bind_eq_some_iff.mp readable
  have word := after?_eq_some_iff.mp lead
  rw [word] at behind
  refine bind_eq_some_iff.mpr ⟨_, after?_append_right lead _, ?_⟩
  exact Capability.readNames?_append_trailing oneLine
    (fun starts ends => free ⟨ends, _, _, t, behind, starts⟩) reading

/-! ## References -/

namespace Reference

theorem skipSign_append {sign : Char} (nonempty : s ≠ []) (t : List Char) :
    skipSign sign (s ++ t) = skipSign sign s ++ t := by
  obtain ⟨c, rest, rfl⟩ := exists_cons_of_ne_nil nonempty
  by_cases same : c = sign
  · simp [skipSign, same]
  · simp [skipSign, same]

theorem enclosed?_append {form : Form} (found : enclosed? s = some (form, rest)) (t : List Char) :
    enclosed? (s ++ t) = some (form, rest ++ t) := by
  unfold enclosed? at found
  split at found
  next s =>
    obtain ⟨⟨path, _⟩, cut, ⟨⟩⟩ := map_eq_some_iff.mp found
    simp [enclosed?, upTo?_append_right cut t]
  next s =>
    obtain ⟨⟨path, _⟩, cut, ⟨⟩⟩ := map_eq_some_iff.mp found
    simp [enclosed?, upTo?_append_right cut t]
  · cases found

theorem exists_sign_of_enclosed? {form : Form} (found : enclosed? s = some (form, rest)) :
    ∃ c more, s = c :: more ∧ c ∈ ['<', '"'] := by
  unfold enclosed? at found
  split at found
  next more => exact ⟨'<', more, rfl, by decide⟩
  next more => exact ⟨'"', more, rfl, by decide⟩
  · cases found

theorem ifExistsChoices_of_some (found : ifExists? s = some rest) :
    ifExistsChoices s = [(true, rest), (false, s)] := by
  simp only [ifExistsChoices, found]

theorem ifExistsChoices_of_none (none : ifExists? s = none) : ifExistsChoices s = [(false, s)] := by
  simp only [ifExistsChoices, none]

theorem ifExists?_eq_some_iff :
    ifExists? s = some rest ↔ ∃ before between, before ≠ [] ∧ (∀ c ∈ before, isBlank c) ∧
      between ≠ [] ∧ (∀ c ∈ between, isBlank c) ∧
      s = before ++ ("if".toList ++ (between ++ ("exists".toList ++ rest))) := by
  constructor
  · intro found
    obtain ⟨v, begun, isExists⟩ := bind_eq_some_iff.mp found
    obtain ⟨u, blanks, word⟩ := bind_eq_some_iff.mp begun
    obtain ⟨w, isIf, further⟩ := bind_eq_some_iff.mp word
    obtain ⟨before, someBefore, blankBefore, rfl⟩ := exists_blanks_of_afterBlanks? blanks
    obtain ⟨between, someBetween, blankBetween, rfl⟩ := exists_blanks_of_afterBlanks? further
    rw [after?_eq_some_iff] at isIf isExists
    exact ⟨before, between, someBefore, blankBefore, someBetween, blankBetween, by rw [isIf, isExists]⟩
  · rintro ⟨before, between, someBefore, blankBefore, someBetween, blankBetween, rfl⟩
    have isIf : afterBlanks? (before ++ ("if".toList ++ (between ++ ("exists".toList ++ rest)))) = _ :=
      afterBlanks?_blanks someBefore blankBefore ⟨'i', _, rfl, by decide⟩
    have isExists : afterBlanks? (between ++ ("exists".toList ++ rest)) = _ :=
      afterBlanks?_blanks someBetween blankBetween ⟨'e', _, rfl, by decide⟩
    simp only [ifExists?, isIf, bind_some, afterWord?, after?_append, isExists]

theorem ifExists?_append (found : ifExists? s = some rest) (t : List Char) :
    ifExists? (s ++ t) = some (rest ++ t) := by
  obtain ⟨before, between, someBefore, blankBefore, someBetween, blankBetween, rfl⟩ :=
    ifExists?_eq_some_iff.mp found
  exact ifExists?_eq_some_iff.mpr
    ⟨before, between, someBefore, blankBefore, someBetween, blankBetween, by simp only [append_assoc]⟩

theorem ifExists?_append_trailing_eq_none (absent : ifExists? s = none) :
    ifExists? (s ++ trailing text) = none := by
  cases found : ifExists? (s ++ trailing text) with
  | none => rfl
  | some rest =>
    obtain ⟨before, between, someBefore, blankBefore, someBetween, blankBetween, split⟩ :=
      ifExists?_eq_some_iff.mp found
    have noSign : ∀ {blanks : List Char}, (∀ c ∈ blanks, isBlank c) → '#' ∉ blanks :=
      fun all sign => absurd (all '#' sign) (by decide)
    have whole : s ++ trailing text = (before ++ "if".toList ++ between ++ "exists".toList) ++ rest := by
      rw [split]
      simp only [append_assoc]
    have ends : EndsSolid (before ++ "if".toList ++ between ++ "exists".toList) :=
      EndsSolid.append ⟨"exist".toList, 's', rfl, by decide⟩ _
    obtain ⟨u, _, rfl⟩ := exists_of_endsSolid whole ends (by simp [noSign blankBefore, noSign blankBetween])
    have present : ifExists? (before ++ "if".toList ++ between ++ "exists".toList ++ u) = some u :=
      ifExists?_eq_some_iff.mpr ⟨before, between, someBefore, blankBefore, someBetween, blankBetween,
        by simp only [append_assoc]⟩
    rw [present] at absent
    cases absent

theorem ifExists?_eq_none {c : Char} (starts : trimStart s = c :: rest) (other : c ≠ 'i') :
    ifExists? s = none := by
  cases found : ifExists? s with
  | none => rfl
  | some behind =>
    obtain ⟨before, between, _, blank, _, _, rfl⟩ := ifExists?_eq_some_iff.mp found
    rw [trimStart_append_of_blank blank] at starts
    exact absurd (List.cons.inj starts).1.symm other

variable {referenced? : List Char → Option (Form × String)}
  (keeps : ∀ {t form}, referenced? t = some (form, "") →
    referenced? (t ++ trailing text) = some (form, kept text))
include keeps

theorem readParts?_append_trailing {parts : Parts}
    (absent : referenced? s = some (parts.form, "") → ifExists? s = none)
    (found : readParts? referenced? s = some (parts, "")) :
    readParts? referenced? (s ++ trailing text) = some (parts, kept text) := by
  obtain ⟨⟨ifExists, t⟩, member, reading⟩ := exists_of_findSome?_eq_some found
  obtain ⟨⟨form, _⟩, isReference, ⟨⟩⟩ := map_eq_some_iff.mp reading
  have again := keeps isReference
  cases choice : ifExists? s with
  | none =>
    rw [ifExistsChoices_of_none choice] at member
    cases mem_singleton.mp member
    rw [readParts?, ifExistsChoices_of_none (ifExists?_append_trailing_eq_none choice)]
    simp [again]
  | some behind =>
    rw [ifExistsChoices_of_some choice] at member
    rcases mem_cons.mp member with same | other
    · cases same
      rw [readParts?, ifExistsChoices_of_some (ifExists?_append choice _)]
      simp [again]
    · cases mem_singleton.mp other
      rw [absent isReference] at choice
      cases choice

theorem readBy_commented (kind : RuleKind) {keyword : String} {make again : RuleBase → Parts → Checked RuleBody}
    (leads : kind.leads = [keyword, "#" ++ keyword]) (heeds : Rule.HeedsModifiers make again)
    (plain : rule.base.comment = "")
    (absent : ∀ s parts, make rule.base parts = .ok rule.body → referenced? s = some (parts.form, "") →
      ifExists? s = none)
    (success : Rule.readBy (read? referenced? keyword) make line = some (.ok rule)) :
    Rule.readBy (read? referenced? keyword) again (line ++ trailing text) =
      some (.ok (rule.commented line text)) := by
  have needs : NeedsLead kind.leads fun s => (after? keyword (skipSign '#' s)).bind (readParts? referenced?) := by
    rw [leads]
    exact (needsLead_signed keyword).bind _
  refine Rule.readBy_withoutModifiers_commented _ needs heeds plain success
    fun s parts nonempty made readable => ⟨parts, ?_, made⟩
  obtain ⟨t, lead, reading⟩ := bind_eq_some_iff.mp readable
  refine bind_eq_some_iff.mpr ⟨t ++ trailing text, ?_, ?_⟩
  · rw [skipSign_append nonempty]
    exact after?_append_right lead _
  · exact readParts?_append_trailing keeps (absent t parts made) reading

end Reference

open Reference

namespace Abi

theorem referenced?_append_trailing (oneLine : '\n' ∉ text) {form : Form}
    (found : referenced? s = some (form, "")) :
    referenced? (s ++ trailing text) = some (form, kept text) := by
  obtain ⟨⟨_, rest⟩, isForm, reading⟩ := bind_eq_some_iff.mp found
  obtain ⟨_, ending, ⟨⟩⟩ := map_eq_some_iff.mp reading
  obtain ⟨c, more, starts, _⟩ := exists_sign_of_enclosed? isForm
  simp [referenced?, trimStart_append (show trimStart s ≠ [] by simp [starts]), enclosed?_append isForm,
    commaEnding?_append_trailing oneLine ending]

theorem ifExists?_of_referenced? {form : Form} (found : referenced? s = some (form, "")) : ifExists? s = none := by
  obtain ⟨_, isForm, _⟩ := bind_eq_some_iff.mp found
  obtain ⟨c, more, starts, sign⟩ := exists_sign_of_enclosed? isForm
  refine ifExists?_eq_none starts ?_
  rintro rfl
  exact absurd sign (by decide)

end Abi

theorem Rule.abi_commented : TakesComment .abi := by
  intro line text rule oneLine plain success
  simp only [readAs?] at success ⊢
  refine Reference.readBy_commented (Abi.referenced?_append_trailing oneLine) .abi rfl ?_ plain
    (fun _ _ _ => Abi.ifExists?_of_referenced?) success
  intro base other parts body audit deny word made
  simpa [Checked.map_eq_ok, Abi.ofParts_eq_ok_iff, Abi.make, RuleBase.forbidModifiers, audit, deny, word]
    using made

namespace Inclusion

theorem bare?_eq_some {form : Form} (found : bare? s = some (form, rest)) (ending : ending? rest = some "") :
    rest = [] ∧ form = .bare (trimEnd (trimStart s)) ∧ afterBlanks? s = some (trimStart s) ∧
      (∀ c ∈ trimStart s, bareChar c) ∧ trimStart s ≠ [] := by
  obtain ⟨t, blanks, cut⟩ := bind_eq_some_iff.mp found
  obtain rfl := eq_trimStart_of_afterBlanks? blanks
  split at cut
  · cases cut
  next nonempty =>
    cases cut
    have all : ∀ c ∈ (trimStart s).takeWhile bareChar, bareChar c := all_eq_true.mp all_takeWhile
    have empty : (trimStart s).dropWhile bareChar = [] := by
      cases left : (trimStart s).dropWhile bareChar with
      | nil => rfl
      | cons c more =>
        rw [left] at ending
        have stops := head?_dropWhile_not bareChar (trimStart s)
        rw [left] at stops
        have blank := blank_of_ending? ending c mem_cons_self
        have bare : bareChar c := by
          have signs : ∀ d ∈ ['<', '>', '"', '#'], c ≠ d := by
            rintro d among rfl
            have solid : ∀ d ∈ ['<', '>', '"', '#'], isBlank d = false := by decide
            rw [solid c among] at blank
            cases blank
          simp [bareChar, signs '<', signs '>', signs '"', signs '#']
        simp [bare] at stops
    have whole : (trimStart s).takeWhile bareChar = trimStart s := by
      have split : (trimStart s).takeWhile bareChar ++ (trimStart s).dropWhile bareChar = trimStart s :=
        takeWhile_append_dropWhile
      rwa [empty, append_nil] at split
    rw [whole] at all nonempty ⊢
    exact ⟨empty, rfl, blanks, all, nonempty⟩

theorem referenced?_append_trailing (oneLine : '\n' ∉ text) {form : Form}
    (found : referenced? s = some (form, "")) :
    referenced? (s ++ trailing text) = some (form, kept text) := by
  obtain ⟨⟨_, rest⟩, cut, further⟩ := bind_eq_some_iff.mp found
  obtain ⟨_, ending, ⟨⟩⟩ := map_eq_some_iff.mp further
  rcases or_eq_some_iff.mp cut with isEnclosed | ⟨notEnclosed, isBare⟩
  · obtain ⟨c, more, starts, _⟩ := exists_sign_of_enclosed? isEnclosed
    have nonempty : trimStart s ≠ [] := by simp [starts]
    simp [referenced?, trimStart_append nonempty, enclosed?_append isEnclosed,
      ending?_append_trailing oneLine ending]
  · obtain ⟨rfl, rfl, blanks, all, nonempty⟩ := bare?_eq_some isBare ending
    have noSign : enclosed? (trimStart s ++ trailing text) = none := by
      obtain ⟨c, more, starts⟩ := exists_cons_of_ne_nil nonempty
      have bare := all c (by simp [starts])
      have open' : c ≠ '<' ∧ c ≠ '"' := by
        refine ⟨?_, ?_⟩ <;> rintro rfl <;> exact absurd bare (by decide)
      rw [starts]
      simp [enclosed?, open']
    have space : bareChar ' ' := by decide
    have sign : bareChar '#' = false := by decide
    have spaced : ∀ c ∈ trimStart s ++ [' '], bareChar c := by
      simpa [or_imp, forall_and, space] using all
    have split : trimStart s ++ trailing text = (trimStart s ++ [' ']) ++ '#' :: text := by
      simp [trailing]
    have again : bare? (s ++ trailing text) = some (.bare (trimEnd (trimStart s)), '#' :: text) := by
      have taken : ((trimStart s ++ [' ']) ++ '#' :: text).takeWhile bareChar = trimStart s ++ [' '] :=
        takeWhile_append_of_stop spaced sign
      have left : ((trimStart s ++ [' ']) ++ '#' :: text).dropWhile bareChar = '#' :: text :=
        dropWhile_append_of_stop spaced sign
      obtain ⟨c, more, starts⟩ := exists_cons_of_ne_nil nonempty
      have trimmed : trimEnd (trimStart s ++ [' ']) = trimEnd (trimStart s) :=
        trimEnd_append_of_blank (by decide) _
      simp only [bare?, afterBlanks?_append blanks nonempty, bind_some, split, taken, left]
      split
      next empty => simp at empty
      · rw [trimmed]
    rw [referenced?, trimStart_append nonempty, noSign, again]
    simp [ending?_sign oneLine]

theorem ifExists?_of_solid {form : Form} (found : referenced? s = some (form, ""))
    (solid : ∀ path, form = .bare path → path.any isBlank = false) : ifExists? s = none := by
  cases exists' : ifExists? s with
  | none => rfl
  | some behind =>
    obtain ⟨before, between, _, blankBefore, someBetween, blankBetween, split⟩ :=
      ifExists?_eq_some_iff.mp exists'
    have starts : trimStart s = "if".toList ++ (between ++ ("exists".toList ++ behind)) := by
      rw [split, trimStart_append_of_blank blankBefore]
      exact trimStart_of_startsSolid ⟨'i', _, rfl, by decide⟩
    obtain ⟨⟨_, rest⟩, cut, further⟩ := bind_eq_some_iff.mp found
    obtain ⟨_, ending, ⟨⟩⟩ := map_eq_some_iff.mp further
    rcases or_eq_some_iff.mp cut with isEnclosed | ⟨_, isBare⟩
    · obtain ⟨c, more, sign, among⟩ := exists_sign_of_enclosed? isEnclosed
      rw [starts] at sign
      obtain ⟨rfl, _⟩ := List.cons.inj sign
      exact absurd among (by decide)
    · obtain ⟨_, rfl, _⟩ := bare?_eq_some isBare ending
      obtain ⟨blank, more, rfl⟩ := exists_cons_of_ne_nil someBetween
      have inside : blank ∈ trimEnd (("if".toList ++ (blank :: more)) ++ 'e' :: ("xists".toList ++ behind)) := by
        rw [trimEnd_append_cons (by decide)]
        simp
      have same : ("if".toList ++ (blank :: more)) ++ 'e' :: ("xists".toList ++ behind) = trimStart s := by
        rw [starts]
        simp
      rw [same] at inside
      have none := any_eq_false.mp (solid _ rfl) blank inside
      exact absurd (blankBetween blank mem_cons_self) none

end Inclusion

theorem Rule.inclusion_commented : TakesComment .inclusion := by
  intro line text rule oneLine plain success
  simp only [readAs?] at success ⊢
  refine Reference.readBy_commented (Inclusion.referenced?_append_trailing oneLine) .inclusion rfl ?_ plain
    ?_ success
  · intro base other parts body audit deny word made
    simpa [Inclusion.ofParts, Inclusion.make, RuleBase.forbidModifiers, audit, deny, word] using made
  · intro s parts made found
    obtain ⟨inclusion, isInclusion, _⟩ := Checked.map_eq_ok.mp made
    exact Inclusion.ifExists?_of_solid found (Inclusion.ofParts_eq_ok_iff.mp isInclusion).1

/-! ## Resource limits -/

namespace Rlimit

/-- A unit, with the blanks before it, and the end of the line. -/
def withUnit? (s : List Char) : Option (List Char × String) :=
  if (s.takeWhile isBlank).isEmpty || ((trimStart s).takeWhile isAsciiLetter).isEmpty then none
  else (commaEnding? ((trimStart s).dropWhile isAsciiLetter)).map
    fun comment => (s.takeWhile isBlank ++ (trimStart s).takeWhile isAsciiLetter, comment)

theorem unit?_eq (s : List Char) : unit? s = (withUnit? s).or ((commaEnding? s).map ([], ·)) := rfl

theorem withUnit?_of_blank (blank : trimStart s = []) : withUnit? (s ++ trailing text) = none := by
  obtain ⟨before, split, all⟩ := exists_blanks s
  rw [blank, append_nil] at split
  have left : trimStart (s ++ trailing text) = '#' :: text := by
    rw [split]
    exact trimStart_blanks_trailing all
  have noLetter : ('#' :: text).takeWhile isAsciiLetter = [] := rfl
  simp [withUnit?, left, noLetter]

theorem withUnit?_of_solid (solid : trimStart s ≠ []) :
    withUnit? (s ++ trailing text) =
      if (s.takeWhile isBlank).isEmpty || ((trimStart s).takeWhile isAsciiLetter).isEmpty then none
      else (commaEnding? ((trimStart s).dropWhile isAsciiLetter ++ trailing text)).map
        fun comment => (s.takeWhile isBlank ++ (trimStart s).takeWhile isAsciiLetter, comment) := by
  have stops : isAsciiLetter ' ' = false := by decide
  simp only [withUnit?, takeWhile_isBlank_append solid, trimStart_append solid,
    takeWhile_append_trailing stops, dropWhile_append_trailing stops]

theorem withUnit?_append_trailing_eq_none (unread : withUnit? s = none) :
    withUnit? (s ++ trailing text) = none := by
  by_cases blank : trimStart s = []
  · exact withUnit?_of_blank blank
  · rw [withUnit?_of_solid blank]
    unfold withUnit? at unread
    split
    · rfl
    next some =>
      rw [if_neg some, map_eq_none_iff] at unread
      rw [commaEnding?_append_trailing_eq_none unread]
      rfl

theorem withUnit?_append_trailing (oneLine : '\n' ∉ text) (found : withUnit? s = some (unit, "")) :
    withUnit? (s ++ trailing text) = some (unit, kept text) := by
  unfold withUnit? at found
  split at found
  · cases found
  next some =>
    obtain ⟨_, ending, ⟨⟩⟩ := map_eq_some_iff.mp found
    have solid : trimStart s ≠ [] := by
      intro empty
      simp [empty] at some
    rw [withUnit?_of_solid solid, if_neg some, commaEnding?_append_trailing oneLine ending]
    rfl

theorem unit?_append_trailing_eq_none (unread : unit? s = none) : unit? (s ++ trailing text) = none := by
  rw [unit?_eq, or_eq_none_iff, map_eq_none_iff] at unread ⊢
  exact ⟨withUnit?_append_trailing_eq_none unread.1, commaEnding?_append_trailing_eq_none unread.2⟩

theorem unit?_append_trailing (oneLine : '\n' ∉ text) (found : unit? s = some (unit, "")) :
    unit? (s ++ trailing text) = some (unit, kept text) := by
  rw [unit?_eq] at found ⊢
  rcases or_eq_some_iff.mp found with withUnit | ⟨noUnit, without⟩
  · rw [withUnit?_append_trailing oneLine withUnit]
    rfl
  · obtain ⟨_, ending, ⟨⟩⟩ := map_eq_some_iff.mp without
    rw [withUnit?_append_trailing_eq_none noUnit, commaEnding?_append_trailing oneLine ending]
    rfl

theorem comma_of_unit? {comment : String} (found : unit? s = some (unit, comment)) : ',' ∈ s := by
  rw [unit?_eq] at found
  rcases or_eq_some_iff.mp found with withUnit | ⟨_, without⟩
  · unfold withUnit? at withUnit
    split at withUnit
    · cases withUnit
    · obtain ⟨_, ending, _⟩ := map_eq_some_iff.mp withUnit
      exact (dropWhile_suffix _).subset ((dropWhile_suffix _).subset (comma_of_commaEnding? ending))
  · obtain ⟨_, ending, _⟩ := map_eq_some_iff.mp without
    exact comma_of_commaEnding? ending

theorem value?_append_trailing (oneLine : '\n' ∉ text) {value : List Char}
    (found : value? s = some (value, "")) : value? (s ++ trailing text) = some (value, kept text) := by
  obtain ⟨⟨blanks, number, unit, _⟩, cut, ⟨⟩⟩ := map_eq_some_iff.mp found
  have stops : valueChar ' ' = false := by decide
  have unread : ∀ rest, unit? rest = none → unit? (rest ++ trailing text) = none :=
    fun _ => unit?_append_trailing_eq_none
  obtain ⟨rest, rfl, all, inner, later⟩ := longest?_eq_some cut
  have comma : ',' ∈ rest := by
    obtain ⟨_, longest⟩ := longestPart?_eq_some_iff.mp inner
    obtain ⟨behind, rfl, _, isUnit, _⟩ := longest?_eq_some longest
    exact mem_append_right _ (comma_of_unit? isUnit)
  have again : longestPart? valueChar unit? (rest ++ trailing text) = some (number, unit, kept text) :=
    longestPart?_append_trailing (fun _ => unit?_append_trailing oneLine) unread stops inner
  have whole : longest? isBlank (longestPart? valueChar unit?) (blanks ++ rest ++ trailing text) =
      some (blanks, number, unit, kept text) := by
    rw [append_assoc]
    refine longest?_append all ?_ again
    intro start suffix split nonempty blank
    obtain ⟨u, rfl, rfl⟩ := exists_of_stop comma (by decide) split blank
    exact longestPart?_append_trailing_eq_none unread stops (later start u rfl nonempty blank)
  rw [value?, whole]
  rfl

end Rlimit

theorem Rule.rlimit_commented : TakesComment .rlimit := by
  intro line text rule oneLine plain success
  simp only [readAs?, Rlimit.read?] at success ⊢
  refine readBy_withoutModifiers_commented .rlimit ((((needsLead_after "set").bind _).bind _).bind _) ?_ plain
    success fun s parts _ made readable => ⟨parts, ?_, made⟩
  · intro base other parts body audit deny word made
    simpa [Rlimit.ofParts, Rlimit.make, RuleBase.forbidModifiers, audit, deny, word] using made
  · obtain ⟨u, worded, readable⟩ := bind_eq_some_iff.mp readable
    obtain ⟨t, set, word⟩ := bind_eq_some_iff.mp worded
    have stops : (' ' : Char).isLower = false := by decide
    split at readable
    · cases readable
    next nonempty =>
      obtain ⟨v, sign, readable⟩ := bind_eq_some_iff.mp readable
      obtain ⟨⟨value, _⟩, valued, ⟨⟩⟩ := map_eq_some_iff.mp readable
      have signThere : trimStart (u.dropWhile fun c => c.isLower) ≠ [] := by
        intro empty
        rw [empty] at sign
        cases sign
      have resourceThere : u ≠ [] := by
        rintro rfl
        exact nonempty rfl
      have wordThere : t ≠ [] := by
        rintro rfl
        cases word
      have again : (afterWord? "set" (s ++ trailing text)).bind (afterWord? "rlimit") =
          some (u ++ trailing text) :=
        bind_eq_some_iff.mpr ⟨t ++ trailing text, afterWord?_append_right set wordThere _,
          afterWord?_append_right word resourceThere _⟩
      simp only [again, bind_some, takeWhile_append_trailing stops, dropWhile_append_trailing stops,
        trimStart_append signThere, after?_append_right sign,
        Rlimit.value?_append_trailing oneLine valued, map_some]

end ArmorPolicy
