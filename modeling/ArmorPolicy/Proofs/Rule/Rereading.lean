import ArmorPolicy.Proofs.Rule.Legible
import ArmorPolicy.Proofs.Rule.Sameness

/-!
# Rules of clauses that are read back

A rule of clauses says the same again where each of its values is read back from its own text and the
line ends where it was meant to.  Both are necessary: the clauses that are read from a part of the
text lack a break that the values of the rule have.
-/

namespace ArmorPolicy

open Option Checked List Text Line Clauses

namespace Rule

variable {rule : Rule} {line text : List Char} {word : String} {make : List Char → Checked RuleBody}

theorem same_rewritten (rule : Rule) : rule.rewritten.same rule false = .ok true :=
  same_iff_saysSame.mpr ⟨rfl, rfl, rfl⟩

/-- The text is read as a rule of the same kind and comment that says the same in the same words. -/
def ReadBackFrom (rule : Rule) (text : String) : Prop :=
  ∃ again, parse? text = some (.ok again) ∧ again.kind = rule.kind ∧
    again.base.comment = rule.base.comment ∧ again.same rule false = .ok true ∧
    again.clean 0 = rule.clean 0

theorem parse?_clean (rule : Rule) (depth : Nat) : parse? (rule.clean depth) = parse? rule.canonical := by
  have text : rule.clean depth = String.ofList ((indent depth).toList ++ rule.canonical.toList) := by
    rw [clean, ← String.toList_append, String.ofList_toList]
  rw [text, parse?_indented (blank_indent depth), String.ofList_toList]

theorem Recovered.readBackFrom (recovered : rule.Restored line) (depth : Nat) :
    rule.ReadBackFrom (rule.clean depth) := by
  refine ⟨rule.rewritten, ?_, rfl, rfl, same_rewritten rule, rfl⟩
  rw [parse?_clean, recovered.read]

/-- The text is read as a rule of the same kind that says the same. -/
def RereadFrom (rule : Rule) (text : String) : Prop :=
  ∃ again, parse? text = some (.ok again) ∧ again.kind = rule.kind ∧ again.same rule false = .ok true

theorem same?_of_same {again : Rule} (same : again.same rule false = .ok true) :
    again.body.same? false rule.body = some true :=
  RuleBody.same?_iff.mpr (same_iff_saysSame.mp same).plain

theorem oneLine_of_body? {s body : List Char} {comment : String}
    (found : body? notNewline s = some (body, comment)) : '\n' ∉ body.dropWhile isSeparator := by
  unfold body? at found
  split at found
  · obtain ⟨_, _, ⟨⟩⟩ := map_eq_some_iff.mp found
    simp
  · obtain ⟨⟨part, _⟩, further, ⟨⟩⟩ := map_eq_some_iff.mp found
    obtain ⟨rest, _, allowed, _⟩ := shortest?_eq_some further
    have blank : ∀ c ∈ s.takeWhile isBlank, isSeparator c := by
      intro c member
      rw [isSeparator, all_eq_true.mp all_takeWhile c member]
      rfl
    rw [dropWhile_append_of_pos blank]
    intro newline
    exact absurd (allowed _ ((dropWhile_sublist _).subset newline)) (by decide)

/-- A rule of a keyword and clauses, the text of its clauses, and how its canonical line is read. -/
structure Clausal (rule : Rule) (word : String) (make : List Char → Checked RuleBody)
    (letters text : List Char) : Prop where
  shows : rule.kind.showsModifiers = true
  member : word ∈ rule.kind.keywords
  reader : readAs? rule.kind rule.canonical.toList =
    readBy (keywordStatement word notNewline) (fun _ parts => make parts) rule.canonical.toList
  bodyText : rule.body.text.toList = word.toList ++ text
  stated : rule.base.Stated
  comment : TrailingComment rule.base.comment
  inked : Inked letters text
  oneLine : '\n' ∉ letters

namespace Clausal

variable {letters : List Char} (clausal : rule.Clausal word make letters text)
include clausal

theorem keyworded (line : List Char) : rule.Keyworded line :=
  keyworded_of_comma (showsModifiers_of_kind clausal.shows) (terminator_of_showsModifiers clausal.shows)
    clausal.member clausal.bodyText clausal.stated clausal.comment
    fun _ => clausal.inked.oneLine clausal.oneLine

theorem statementText_eq : rule.statementText = word.toList ++ (text ++ ',' :: rule.base.comment.toList) :=
  statementText_of_comma (terminator_of_showsModifiers clausal.shows) clausal.bodyText

theorem parse?_canonical {body : List Char} {comment : String}
    (cut : body? notNewline (text ++ ',' :: rule.base.comment.toList) = some (body, comment)) :
    ∃ base, parse? rule.canonical = some ((make body).map fun body => ⟨base, body⟩) := by
  have keyworded := clausal.keyworded []
  obtain ⟨lead, among, starts⟩ := keyworded.lead
  let statement : Statement (List Char) := ⟨rule.base.audit, rule.base.decision, comment, body⟩
  have found : keywordStatement word notNewline rule.canonical.toList = some statement := by
    refine keyworded.withModifiers_canonical ?_
    rw [clausal.statementText_eq, after?_append, bind_some, cut]
  refine ⟨statement.base rule.canonical.toList, Rule.parse?_canonical keyworded.shows among starts ?_⟩
  rw [clausal.reader, readBy, found]
  rfl

theorem exists_part :
    ∃ part, text = spacedPart part ∧ (part ≠ [] → StartsSolid part) ∧ part.getLast? ≠ some ' ' ∧
      '\n' ∉ part := by
  have oneLine := clausal.inked.oneLine clausal.oneLine
  by_cases empty : text = []
  · exact ⟨[], empty, fun nonempty => absurd rfl nonempty, by simp, by simp⟩
  · obtain ⟨part, rfl, starts⟩ := clausal.inked.starts empty
    obtain ⟨c, tail, rfl, solid⟩ := starts
    refine ⟨c :: tail, rfl, fun _ => ⟨c, tail, rfl, solid⟩, fun last => clausal.inked.ends ?_,
      fun newline => oneLine ?_⟩
    · rw [getLast?_cons_cons]
      exact last
    · exact mem_cons_of_mem _ newline

theorem uncommented_iff : Uncommented rule.body.text.toList ↔ Uncommented text := by
  have plain : ∀ kind ∈ RuleKind.all, ∀ word ∈ kind.keywords, ',' ∉ word.toList := by decide
  rw [clausal.bodyText]
  exact Aliasing.uncommented_append_iff (plain _ (RuleKind.mem_all _) word clausal.member)

omit clausal in
theorem uncommented_part {part : List Char} : Uncommented (spacedPart part) ↔ Uncommented part := by
  cases part with
  | nil => exact Iff.rfl
  | cons c tail =>
    have space : ',' ∉ [' '] := by decide
    exact Aliasing.uncommented_append_iff space

theorem recovered (made : make text = .ok rule.body) (ends : text ≠ [] → EndsSolid text)
    (uncommented : Uncommented rule.body.text.toList) : rule.Restored line := by
  rw [clausal.uncommented_iff] at uncommented
  obtain ⟨part, rfl, starts, _, oneLine⟩ := clausal.exists_part
  have tidy : part ≠ [] → Tidy part := by
    intro nonempty
    rw [spacedPart_of_ne_nil nonempty] at ends
    exact ⟨starts nonempty, (ends (by simp)).of_cons nonempty, oneLine⟩
  have keyworded := clausal.keyworded line
  refine keyworded.recovered_rewritten rfl clausal.reader (keyworded.withModifiers_canonical ?_) made
  rw [clausal.statementText_eq, after?_append, bind_some,
    body?_of_uncommented tidy (uncommented_part.mp uncommented) clausal.comment]

/-- A rule is read back exactly where its values are legible and no comma in it ends its line.

Read from less than all clauses, a rule has fewer breaks in its values. -/
theorem rereadFrom_iff {Legible : Prop}
    (sound : Legible → make text = .ok rule.body ∧ (text ≠ [] → EndsSolid text))
    (keeps : ∀ body again, make body = .ok again → again.same? false rule.body = some true →
      text.countP isBreak ≤ body.countP isBreak)
    (necessary : ∀ again, make text = .ok again → again.same? false rule.body = some true → Legible)
    (depth : Nat) : rule.RereadFrom (rule.clean depth) ↔ Legible ∧ Uncommented rule.body.text.toList := by
  constructor
  · rintro ⟨again, success, _, same⟩
    have sameBody := same?_of_same same
    rw [clausal.uncommented_iff]
    obtain ⟨part, rfl, starts, last, oneLine⟩ := clausal.exists_part
    obtain ⟨body, comment, cut, whole⟩ := exists_body? starts last oneLine clausal.comment
    obtain ⟨base, read⟩ := clausal.parse?_canonical cut
    rw [parse?_clean, read] at success
    obtain ⟨found, made, rfl⟩ := map_eq_ok.mp (some.inj success)
    rcases whole with ⟨rfl, uncommented⟩ | fewer
    · exact ⟨necessary found made sameBody, uncommented_part.mpr uncommented⟩
    · exact absurd (keeps body found made sameBody) (Nat.not_le.mpr fewer)
  · rintro ⟨legible, uncommented⟩
    obtain ⟨made, ends⟩ := sound legible
    have recovered : rule.Restored [] := clausal.recovered made ends uncommented
    obtain ⟨again, read, kind, _, same, _⟩ := recovered.readBackFrom depth
    exact ⟨again, read, kind, same⟩

end Clausal

/-- How rules of a keyword and clauses are read and written.  What is written behind the keyword has the
breaks of the values and no others, and it is read back exactly where the values are legible. -/
structure ClauseGrammar (kind : RuleKind) (word : String) {Content : Type}
    (ofParts : List Char → Checked Content) (wrap : Content → RuleBody)
    (letters text : Content → List Char) (Legible : Content → Prop) : Prop where
  reader : ∀ line, readAs? kind line =
    readBy (keywordStatement word notNewline) (fun _ parts => (ofParts parts).map wrap) line
  shows : kind.showsModifiers = true
  member : word ∈ kind.keywords
  injective : ∀ {content again}, wrap content = wrap again → content = again
  written : ∀ content, (wrap content).text.toList = word.toList ++ text content
  inked : ∀ {body content}, ofParts body = .ok content → Inked (letters content) (text content)
  within : ∀ {body content}, ofParts body = .ok content →
    letters content ⊆ body.dropWhile isSeparator ∧ (letters content).countP isBreak ≤ body.countP isBreak
  sameLetters : ∀ {content again}, (wrap again).same? false (wrap content) = some true →
    letters again = letters content
  sound : ∀ {body content}, ofParts body = .ok content → Legible content →
    ofParts (text content) = .ok content ∧ (text content ≠ [] → EndsSolid (text content))
  necessary : ∀ {body content again}, ofParts body = .ok content → ofParts (text content) = .ok again →
    (wrap again).same? false (wrap content) = some true → Legible content

namespace ClauseGrammar

variable {kind : RuleKind} {Content : Type} {ofParts : List Char → Checked Content}
  {wrap : Content → RuleBody} {text : Content → List Char}

theorem of_singles {singles : Content → Singles} (reader : ∀ line, readAs? kind line =
      readBy (keywordStatement word notNewline) (fun _ parts => (ofParts parts).map wrap) line)
    (shows : kind.showsModifiers) (member : word ∈ kind.keywords)
    (injective : ∀ {content again}, wrap content = wrap again → content = again)
    (written : ∀ content, (wrap content).text.toList = word.toList ++ text content)
    (gives : ∀ {body content}, ofParts body = .ok content →
      ∃ entries, (singles content).entries.Sublist entries ∧ Gives body entries)
    (same : ∀ {content again}, (wrap again).same? false (wrap content) = some true →
      singles again = singles content)
    (inked : ∀ {body content}, ofParts body = .ok content → (singles content).Given →
      Inked (letters (statedAll (singles content).entries)) (text content))
    (sound : ∀ {body content}, ofParts body = .ok content → (singles content).Given →
      (singles content).Legible →
      ofParts (text content) = .ok content ∧ (text content ≠ [] → EndsSolid (text content))) :
    ClauseGrammar kind word ofParts wrap (fun content => letters (statedAll (singles content).entries)) text
      fun content => (singles content).Legible := by
  have given : ∀ {body content}, ofParts body = .ok content → (singles content).Given := by
    intro body content made
    obtain ⟨entries, within, gives⟩ := gives made
    exact Singles.given_of_gives within.subset gives
  refine ⟨reader, shows, member, injective, written, fun made => inked made (given made), fun made => ?_,
    fun agrees => by rw [same agrees], fun made => sound made (given made), fun made read agrees => ?_⟩
  · obtain ⟨entries, within, gives⟩ := gives made
    have fewer := letters_statedAll_sublist within
    exact ⟨fun c inLetters => gives.letters_subset (fewer.subset inLetters),
      Nat.le_trans fewer.countP_le (gives.countP_le isBreak)⟩
  · obtain ⟨entries, within, gives⟩ := gives read
    rw [same agrees] at within
    exact Singles.legible_of_gives within.subset (inked made (given made)).marked gives

variable {letters : Content → List Char} {Legible : Content → Prop}
  (grammar : ClauseGrammar kind word ofParts wrap letters text Legible)
  (success : readAs? kind line = some (.ok rule))
include grammar success

theorem exists_clausal :
    ∃ body content, body ⊆ line ∧ ofParts body = .ok content ∧ wrap content = rule.body ∧
      rule.Clausal word (fun parts => (ofParts parts).map wrap) (letters content) (text content) := by
  obtain rfl := kind_of_readAs? success
  rw [grammar.reader] at success
  obtain ⟨body, within, ⟨_, found⟩, made, stated, comment⟩ := readBy_keywordStatement_eq_ok success
  obtain ⟨content, made, shape⟩ := map_eq_ok.mp made
  refine ⟨body, content, within, made, shape, grammar.shows, grammar.member, grammar.reader _, ?_, stated,
    comment, grammar.inked made, fun newline => ?_⟩
  · rw [← shape]
    exact grammar.written content
  · exact oneLine_of_body? found ((grammar.within made).1 newline)

theorem recovered {content : Content} (shape : rule.body = wrap content) (legible : Legible content)
    (uncommented : Uncommented rule.body.text.toList) : rule.Restored line := by
  obtain ⟨body, found, _, made, same, clausal⟩ := grammar.exists_clausal success
  obtain rfl := grammar.injective (same.trans shape)
  obtain ⟨again, ends⟩ := grammar.sound made legible
  exact clausal.recovered (by rw [again, shape]; rfl) ends uncommented

theorem rereadFrom_iff {content : Content} (shape : rule.body = wrap content) (depth : Nat) :
    rule.RereadFrom (rule.clean depth) ↔ Legible content ∧ Uncommented rule.body.text.toList := by
  obtain ⟨body, found, _, made, same, clausal⟩ := grammar.exists_clausal success
  obtain rfl := grammar.injective (same.trans shape)
  refine clausal.rereadFrom_iff (fun legible => ?_) (fun parts found stated agrees => ?_)
    (fun found stated agrees => ?_) depth
  · obtain ⟨again, ends⟩ := grammar.sound made legible
    exact ⟨by rw [again, shape]; rfl, ends⟩
  · obtain ⟨again, read, rfl⟩ := map_eq_ok.mp stated
    rw [shape] at agrees
    rw [clausal.inked.breaks, ← grammar.sameLetters agrees]
    exact (grammar.within read).2
  · obtain ⟨again, read, rfl⟩ := map_eq_ok.mp stated
    rw [shape] at agrees
    exact grammar.necessary made read agrees

end ClauseGrammar

end Rule

/-! ## Patterns -/

def Extent.glob? (value : Extent Pattern) : Option String := value.value?.map Pattern.glob

theorem Extent.patternValue_eq (value : Extent Pattern) : patternValue value = value.glob?.map .single := by
  cases value <;> rfl

theorem Extent.statedAll_entries (key : String) (value : Extent Pattern) :
    statedAll (Singles.entries [(key, value.glob?)]) = stated key (patternValue value) := by
  simp [statedAll, Singles.entries, patternValue_eq]

theorem Extent.glob?_eq_of_sameBy {value other : Extent Pattern}
    (same : value.sameBy Pattern.same other) : value.glob? = other.glob? := by
  cases value <;> cases other
  case all.all => rfl
  case only.only mine theirs => exact congrArg some (eq_of_beq same)
  all_goals cases same

theorem Extent.conditionText_toList (key : String) (value : Extent Pattern) :
    (value.conditionText key).toList = Singles.written [(key, value.glob?)] := by
  cases value with
  | all => rfl
  | only pattern => simp [conditionText, text, glob?, value?, Singles.written, conditionOf]

namespace Clauses

variable {text : List Char} {access : Access} {allowed : List String}

theorem endsSolid_access (names : ∀ word ∈ allowed, IsName word) (isFor : access.IsFor allowed)
    (ends : text ≠ [] → EndsSolid text) (nonempty : access.text.toList ++ text ≠ []) :
    EndsSolid (access.text.toList ++ text) := by
  by_cases empty : text = []
  · rw [empty, append_nil, Access.text_toList] at nonempty ⊢
    refine endsSolid_listing (access.valid_steps names isFor) fun none => nonempty ?_
    rw [none]
    rfl
  · exact (ends empty).append _

end Clauses

/-! ## Tracing -/

def Clauses.Singles.ofPeer (peer : Extent Pattern) : Singles := [("peer", peer.glob?)]

theorem Clauses.Singles.isName_ofPeer {peer : Extent Pattern} :
    ∀ single ∈ Singles.ofPeer peer, IsName single.1 := by
  simp only [ofPeer, mem_singleton, forall_eq]
  decide

namespace Ptrace

variable {ptrace again : Ptrace} {body : List Char}

def singles (ptrace : Ptrace) : Singles := .ofPeer ptrace.peer

def clausesText (ptrace : Ptrace) : List Char := ptrace.access.text.toList ++ ptrace.singles.written

theorem text_eq (ptrace : Ptrace) : ptrace.text.toList = "ptrace".toList ++ ptrace.clausesText := by
  rw [text, String.toList_append, String.toList_append, Extent.conditionText_toList, append_assoc]
  rfl

theorem gives_of_ofParts (success : ofParts body = .ok ptrace) :
    ptrace.access.IsFor accessWords ∧ MadeOfText ptrace.peer ∧ Gives body ptrace.singles.entries := by
  obtain ⟨clauses, read, success⟩ := bind_eq_ok.mp success
  obtain ⟨access, accessOf, success⟩ := bind_eq_ok.mp success
  obtain ⟨⟨peer, rest⟩, taken, success⟩ := bind_eq_ok.mp success
  obtain ⟨_, finished, success⟩ := bind_eq_ok.mp success
  obtain ⟨_, _, rfl⟩ := map_eq_ok.mp success
  obtain ⟨made, perm⟩ := takePattern_perm taken
  refine ⟨Access.isFor_of_ofWords accessOf, made, clauses, read, ?_⟩
  rw [finish_eq_ok finished, Extent.patternValue_eq] at perm
  exact perm

theorem eq_of_same (same : again.same ptrace) : again.singles = ptrace.singles := by
  rw [Ptrace.same, Bool.and_eq_true] at same
  rw [singles, singles, Singles.ofPeer, Extent.glob?_eq_of_sameBy same.2]
  rfl

end Ptrace

theorem Rule.ptraceGrammar :
    ClauseGrammar .ptrace "ptrace" Ptrace.ofParts .ptrace
      (fun ptrace => letters (statedAll ptrace.singles.entries)) Ptrace.clausesText
      fun ptrace => ptrace.singles.Legible := by
  refine .of_singles (fun _ => rfl) rfl (by decide) RuleBody.ptrace.inj Ptrace.text_eq
    (fun made => ⟨_, .refl _, (Ptrace.gives_of_ofParts made).2.2⟩)
    (fun agrees => Ptrace.eq_of_same (some.inj agrees)) (fun made given => ?_)
    (fun made given legible => ?_)
  · exact (inked_access Ptrace.isName_accessWords (Ptrace.gives_of_ofParts made).1).append
      (Singles.inked_written Singles.isName_ofPeer given)
  · obtain ⟨isFor, isText, _⟩ := Ptrace.gives_of_ofParts made
    have states := Singles.statings Singles.isName_ofPeer given legible
    refine ⟨Ptrace.ofParts_of_read isFor isText ?_,
      endsSolid_access Ptrace.isName_accessWords isFor states.endsSolid⟩
    rw [← Extent.statedAll_entries]
    exact read_statings Ptrace.isName_accessWords isFor states

/-! ## Signals -/

namespace Signal

variable {signal again : Signal} {body : List Char}

def singles (signal : Signal) : Singles := .ofPeer signal.peer

def setText (signal : Signal) : List Char :=
  (signalsValue signal.signals).elim [] fun value => conditionOf "set" (valueText value)

theorem setText_eq (signal : Signal) :
    (signal.signals.text fun names => " set=" ++ Access.listText names).toList = signal.setText := by
  unfold setText
  cases signal.signals with
  | all => rfl
  | only set =>
    simp [Extent.text, signalsValue, Extent.value?, Access.listText_toList, conditionOf, valueText_namesValue]

def clausesText (signal : Signal) : List Char :=
  signal.access.text.toList ++ (signal.setText ++ signal.singles.written)

theorem text_eq (signal : Signal) : signal.text.toList = "signal".toList ++ signal.clausesText := by
  simp only [text, String.toList_append, setText_eq, Extent.conditionText_toList, append_assoc]
  rfl

theorem gives_of_ofParts (success : ofParts body = .ok signal) :
    signal.access.IsFor accessWords ∧ AreSignals signal.signals ∧ MadeOfText signal.peer ∧
      ∃ names, Gives body (("set", names) :: signal.singles.entries) := by
  obtain ⟨clauses, read, success⟩ := bind_eq_ok.mp success
  obtain ⟨access, accessOf, success⟩ := bind_eq_ok.mp success
  obtain ⟨⟨names, rest⟩, namesTaken, success⟩ := bind_eq_ok.mp success
  obtain ⟨⟨peer, others⟩, taken, success⟩ := bind_eq_ok.mp success
  obtain ⟨_, finished, success⟩ := bind_eq_ok.mp success
  obtain ⟨_, _, success⟩ := bind_eq_ok.mp success
  obtain ⟨_, checked, ⟨⟩⟩ := bind_eq_ok.mp success
  obtain ⟨made, perm⟩ := takePattern_perm taken
  rw [finish_eq_ok finished, Extent.patternValue_eq] at perm
  exact ⟨Access.isFor_of_ofWords accessOf, checkSignals_eq_ok_iff.mp checked, made, names, clauses, read,
    (take_perm namesTaken).trans (perm.append_left _)⟩

theorem eq_of_same (same : again.same signal) : again.singles = signal.singles := by
  rw [Signal.same, Bool.and_eq_true] at same
  rw [singles, singles, Singles.ofPeer, Extent.glob?_eq_of_sameBy same.2]
  rfl

variable (signals : AreSignals signal.signals)
include signals

theorem inked_setText : Inked [] signal.setText := by
  unfold setText
  cases found : signalsValue signal.signals with
  | none => exact .nil
  | some value =>
    have valid : ∀ step ∈ [Step.condition "set" value], step.Valid := by
      rw [forall_mem_singleton]
      exact ⟨by decide, isValue_signalsValue signals value found⟩
    simpa [listing, Step.text, conditionOf] using inked_listing valid

theorem stating_setText : Stating "set" (signalsValue signal.signals) signal.setText := by
  unfold setText
  cases found : signalsValue signal.signals with
  | none => exact .none
  | some value =>
    have valid := isValue_signalsValue signals value found
    exact .some (spells_valueText valid) (endsSolid_valueText valid)

end Signal

theorem Rule.signalGrammar :
    ClauseGrammar .signal "signal" Signal.ofParts .signal
      (fun signal => letters (statedAll signal.singles.entries)) Signal.clausesText
      fun signal => signal.singles.Legible := by
  refine .of_singles (fun _ => rfl) rfl (by decide) RuleBody.signal.inj Signal.text_eq (fun made => ?_)
    (fun agrees => Signal.eq_of_same (some.inj agrees)) (fun made given => ?_)
    (fun made given legible => ?_)
  · obtain ⟨_, _, _, names, gives⟩ := Signal.gives_of_ofParts made
    exact ⟨_, sublist_cons_self _ _, gives⟩
  · obtain ⟨isFor, signals, _⟩ := Signal.gives_of_ofParts made
    exact (inked_access Signal.isName_accessWords isFor).append
      ((Signal.inked_setText signals).append (Singles.inked_written Singles.isName_ofPeer given))
  · obtain ⟨isFor, signals, isText, _⟩ := Signal.gives_of_ofParts made
    have setKey : IsName "set" := by decide
    have states := Statings.cons setKey (Signal.stating_setText signals)
      (Singles.statings Singles.isName_ofPeer given legible)
    refine ⟨Signal.ofParts_of_read isFor signals isText ?_,
      endsSolid_access Signal.isName_accessWords isFor states.endsSolid⟩
    rw [Signal.conditions, ← Extent.statedAll_entries]
    exact read_statings Signal.isName_accessWords isFor states

end ArmorPolicy
