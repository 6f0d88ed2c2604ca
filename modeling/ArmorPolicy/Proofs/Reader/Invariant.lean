import ArmorPolicy.Proofs.Reader.Structure

/-!
# What holds while a text is read

Every scope stems from a line that opens it and every rule from a line that states it, and no statement
of the preamble clashes with an earlier one.  One step keeps all of this, and so does a whole run.
-/

namespace ArmorPolicy

open Except SortedMap String Checked List Text Line LineForm

variable {header : HeaderLine} {line : List Char} {state : ReaderState} {rule : Rule}
  {base scope : Scope}

/-! ## Lines -/

/-- What is kept of a statement that goes on in the next line. -/
structure Unfinished (statement : List Char) : Prop where
  starts : StartsSolid statement
  oneLine : '\n' ∉ statement

theorem Unfinished.tidy_append {statement : List Char} (unfinished : Unfinished statement) (tidy : Tidy line) :
    Tidy (statement ++ ' ' :: line) := by
  refine ⟨unfinished.starts.append _, (tidy.ends.cons ' ').append _, ?_⟩
  simp [unfinished.oneLine, tidy.oneLine]

theorem beforeCommentFrom?_prefix {quoted : Bool} {start : List Char}
    (found : beforeCommentFrom? quoted line = some start) : start <+: line := by
  induction line generalizing quoted start with
  | nil => cases quoted <;> cases found
  | cons c rest ih =>
    have further : ∀ {inner : Bool}, (beforeCommentFrom? inner rest).map (c :: ·) = some start →
        start <+: c :: rest := by
      intro inner success
      obtain ⟨before, inside, rfl⟩ := Option.map_eq_some_iff.mp success
      exact cons_prefix_cons.mpr ⟨rfl, ih inside⟩
    cases quoted with
    | true => exact further found
    | false =>
      rw [beforeCommentFrom?] at found
      split at found
      · rw [← Option.some.inj found]
        exact nil_prefix
      · exact further found

theorem unfinished_of_tidy (tidy : Tidy line) (noComment : line.head? ≠ some '#') :
    Unfinished (withoutComment line) := by
  obtain ⟨c, rest, rfl, solid⟩ := tidy.starts
  unfold withoutComment
  split
  next start found =>
    have initial : start <+: c :: rest := beforeCommentFrom?_prefix found
    have nonempty : start ≠ [] := by
      rintro rfl
      rw [beforeCommentFrom?] at found
      split at found
      next sign => exact noComment (by simp [sign])
      · obtain ⟨_, _, ⟨⟩⟩ := Option.map_eq_some_iff.mp found
    have starts : StartsSolid start := by
      cases start with
      | nil => exact absurd rfl nonempty
      | cons d start =>
        obtain rfl : d = c := (cons_prefix_cons.mp initial).1
        exact ⟨d, start, rfl, solid⟩
    have within : trimEnd start ⊆ c :: rest := ((trimEnd_sublist start).trans initial.sublist).subset
    exact ⟨startsSolid_trimEnd starts, fun newline => tidy.oneLine (within newline)⟩
  · exact ⟨⟨c, rest, rfl, solid⟩, tidy.oneLine⟩

/-! ## Scopes and profiles -/

structure KeptComment (comment : String) : Prop where
  tidy : Tidy comment.toList
  form : LineForm.ofLine comment.toList = .comment
  current : ReaderState.lastModified.isPrefixOf comment.toList = false

inductive Scope.Opens (scope : Scope) (line : List Char) : Prop
  | header (header : HeaderLine) (form : LineForm.ofLine line = .header header)
      (name : scope.shownName = header.name) (word : scope.profileWord = header.profileWord)
      (attachment : scope.attachment = header.attachment.map fun glob => ⟨glob, none⟩)
      (valid : ∀ pattern, scope.attachment = some pattern → Pattern.ofText pattern.glob true = .ok pattern)
      (xattrs : scope.xattrs = header.xattrs)
      (flags : scope.flags = (header.flags.map Flags.ofText).getD .empty)
      (comment : scope.headerComment = header.comment)
  | hat (hat : HatLine) (form : LineForm.ofLine line = .hat hat) (name : scope.shownName = hat.name)
      (word : scope.profileWord = false) (attachment : scope.attachment = none)
      (xattrs : scope.xattrs = none) (flags : scope.flags = (hat.flags.map Flags.ofText).getD .empty)
      (comment : scope.headerComment = hat.comment)

structure Scope.Sound (scope : Scope) : Prop where
  comments : ∀ comment ∈ scope.initialComment, KeptComment comment
  opened : ∃ line, Tidy line ∧ scope.Opens line
  rules : ∀ rule ∈ scope.rules.rules, rule.Faithful ∧ rule.kind ∈ Ruleset.scopeOrder
  behind : scope.external → ∃ root, scope.ExternalHatOf root
  hat : scope.kind = .hat → scope.external = false →
    scope.profileWord = false ∧ scope.attachment = none ∧ scope.xattrs = none ∧ scope.initialComment = []
  child : scope.kind = .child → scope.profileWord ∧ scope.initialComment = []

structure ReaderState.Sound (state : ReaderState) : Prop where
  pending : ∀ statement start, state.pending = some (statement, start) → Unfinished statement
  comments : ∀ comment ∈ state.comments, KeptComment comment
  preamble : ∀ rule ∈ state.preamble.ruleset.rules, rule.Faithful ∧ rule.kind ∈ Preamble.order
  clear : Rule.Clear state.preamble.ruleset.rules
  finished : ∀ profile ∈ state.finished, profile.Every Scope.Sound
  stack : ∀ profile ∈ state.stack, profile.Every Scope.Sound

/-! ## Opening -/

theorem opens_of_dressed (form : ofLine line = .header header)
    (name : base.shownName = header.name) (success : ReaderState.dressed base header = .ok scope)
    (comments : List String) : { scope with initialComment := comments }.Opens line := by
  obtain ⟨attachment, given, valid, rfl⟩ := dressed_eq_ok success
  exact .header header form name rfl given valid rfl rfl rfl

section Steps

variable {next : ReaderState}

theorem sound_openProfile (sound : state.Sound) (tidy : Tidy line) (form : ofLine line = .header header)
    (success : state.openProfile .profiles header = .ok next) : next.Sound := by
  obtain ⟨_, base, scope, based, dressed, rfl⟩ := Reader.openProfile_eq_ok success
  unfold ReaderState.openedScope at based
  split at based
  next here =>
    obtain ⟨name, noRules, place⟩ := topScope_eq_ok based
    have opens := opens_of_dressed form name dressed state.comments
    obtain ⟨attachment, _, _, rfl⟩ := dressed_eq_ok dressed
    refine { sound with comments := by simp, stack := ?_ }
    rw [here]
    refine forall_mem_singleton.mpr (.ofScope ?_)
    have opened : ∃ line, Tidy line ∧ Scope.Opens _ line := ⟨line, tidy, opens⟩
    rcases place with root | ⟨root, hat⟩
    · exact ⟨sound.comments, opened, by simp [noRules], by simp [root.inFile], by simp [root.kind], by simp [root.kind]⟩
    · refine ⟨sound.comments, opened, by simp [noRules], fun _ => ?_, by simp [hat.external], by simp [hat.kind]⟩
      exact ⟨root, hat.kind, hat.external, hat.parent, hat.name⟩
  next outer below here =>
    obtain ⟨worded, profileKind, rfl⟩ := innerScope_eq_ok based
    have opens := opens_of_dressed form rfl dressed []
    obtain ⟨attachment, _, _, rfl⟩ := dressed_eq_ok dressed
    refine { sound with comments := by simp, stack := forall_mem_cons.mpr ⟨.ofScope ?_, sound.stack⟩ }
    rw [here]
    exact ⟨by simp, ⟨line, tidy, opens⟩, by simp, by simp, by simp, fun _ => ⟨worded, rfl⟩⟩

theorem sound_openHat {hat : HatLine} (sound : state.Sound) (tidy : Tidy line)
    (form : ofLine line = .hat hat) (success : state.openHat .profiles hat = .ok next) : next.Sound := by
  obtain ⟨outer, below, here, kind, rfl⟩ := Reader.openHat_eq_ok success
  refine { sound with stack := forall_mem_cons.mpr ⟨.ofScope ?_, here ▸ sound.stack⟩ }
  refine ⟨by simp, ⟨line, tidy, .hat hat form rfl rfl rfl rfl rfl rfl⟩, by simp, by simp, ?_, by simp⟩
  exact fun _ _ => ⟨rfl, rfl, rfl, rfl⟩

/-! ## Closing -/

/-- A scope that stands in its file does not show to whom it belongs. -/
theorem Scope.Sound.adopted (sound : scope.Sound) {root : String}
    (parent : scope.external → scope.parent = some root) : { scope with parent := some root }.Sound := by
  by_cases external : scope.external
  · have same : { scope with parent := some root } = scope := by rw [← parent external]
    rwa [same]
  · obtain ⟨line, tidy, opens⟩ := sound.opened
    have same : { scope with parent := some root }.shownName = scope.shownName := by
      simp [shownName, external]
    refine ⟨sound.comments, ⟨line, tidy, ?_⟩, sound.rules, by simp [external], sound.hat, sound.child⟩
    cases opens with
    | header header form name word attachment valid xattrs flags comment =>
      exact .header header form (same.trans name) word attachment valid xattrs flags comment
    | hat hat form name word attachment xattrs flags comment =>
      exact .hat hat form (same.trans name) word attachment xattrs flags comment

theorem sound_close (structured : state.Structured) (sound : state.Sound)
    (success : state.close (fun _ => []) = .ok next) : next.Sound := by
  have stacked := structured.stack
  have opened := sound.stack
  unfold ReaderState.close at success
  simp only at success
  split at success
  · cases success
  next inner outer below here =>
    rw [here] at stacked
    rw [here, forall_mem_cons, forall_mem_cons] at opened
    obtain ⟨own, others, further⟩ := opened
    obtain ⟨filled, added, rfl⟩ := map_eq_ok.mp success
    cases stacked with
    | child whole kind inFile =>
      have filled := others.addInner own (own.own.adopted (by simp [inFile])) added
      exact { sound with comments := by simp, stack := forall_mem_cons.mpr ⟨filled, further⟩ }
  next profile here =>
    rw [here, forall_mem_singleton] at opened
    split at success
    next external =>
      obtain ⟨finished, given, rfl⟩ := map_eq_ok.mp success
      obtain ⟨root, hat⟩ := opened.own.behind external
      rw [hat.parent] at given
      have finished := every_giveToParent sound.finished opened (opened.own.adopted fun _ => hat.parent) given
      exact { sound with comments := by simp, stack := forall_mem_nil _, finished }
    · obtain ⟨_, rfl⟩ := finishProfile_eq_ok success
      have finished := forall_mem_append.mpr ⟨sound.finished, forall_mem_singleton.mpr opened⟩
      exact { sound with comments := by simp, stack := forall_mem_nil _, finished }

/-! ## Comments and statements -/

theorem sound_addComment (sound : state.Sound) (tidy : Tidy line)
    (form : ofLine line = .comment) : (state.addComment .profiles line).Sound := by
  unfold ReaderState.addComment
  split
  · exact sound
  next kept =>
    simp only [Bool.or_eq_true, not_or] at kept
    refine { sound with comments := forall_mem_append.mpr ⟨sound.comments, forall_mem_singleton.mpr ?_⟩ }
    rw [← toList_ofList (l := line)] at tidy form kept
    exact ⟨tidy, form, Bool.eq_false_iff.mpr kept.2⟩

theorem Rule.faithful_of_parse? (tidy : Tidy line) (form : ofLine line = .statement)
    (read : Rule.parse? (String.ofList line) = some (.ok rule)) : rule.Faithful := by
  obtain ⟨kind, readAs⟩ := Rule.readAs?_of_parse? read
  have written := Rule.written_of_readAs? readAs
  rw [toList_ofList, tidy.trim_eq] at written
  obtain rfl : rule.writtenLine = line := by simp [Rule.writtenLine, written]
  exact ⟨tidy, form, read⟩

theorem Scope.Sound.addAll (sound : scope.Sound) (stated : rule.Faithful)
    (kind : rule.kind ∈ Ruleset.scopeOrder) : (scope.addAll [rule]).Sound := by
  obtain ⟨line, tidy, opens⟩ := sound.opened
  refine ⟨sound.comments, ⟨line, tidy, ?_⟩, ?_, fun external => ?_, sound.hat, sound.child⟩
  · cases opens with
    | header header form name word attachment valid xattrs flags comment =>
      exact .header header form name word attachment valid xattrs flags comment
    | hat hat form name word attachment xattrs flags comment =>
      exact .hat hat form name word attachment xattrs flags comment
  · exact forall_mem_append.mpr ⟨sound.rules, forall_mem_singleton.mpr ⟨stated, kind⟩⟩
  · obtain ⟨root, hat⟩ := sound.behind external
    exact ⟨root, hat.kind, hat.external, hat.parent, hat.name⟩

theorem sound_place (sound : state.Sound) (stated : rule.Faithful)
    (success : state.place .profiles rule = .ok next) : next.Sound := by
  have opened := sound.stack
  unfold ReaderState.place at success
  split at success
  next impossible => cases impossible
  · obtain ⟨preamble, added, rfl⟩ := map_eq_ok.mp success
    obtain ⟨kind, clear, rfl⟩ := Preamble.add_eq_ok added
    refine { sound with preamble := ?_, clear := ?_ }
    · exact forall_mem_append.mpr ⟨sound.preamble, forall_mem_singleton.mpr ⟨stated, kind⟩⟩
    · refine pairwise_append.mpr ⟨sound.clear, by simp, ?_⟩
      intro known earlier new last
      rw [mem_singleton.mp last]
      exact clear known earlier
  next inner below _ here =>
    rw [here, forall_mem_cons] at opened
    obtain ⟨scope, added, rfl⟩ := map_eq_ok.mp success
    obtain ⟨kind, rfl⟩ := addToScope_eq_ok added
    have filled := opened.1.withScope (opened.1.own.addAll stated kind)
    exact { sound with stack := forall_mem_cons.mpr ⟨filled, opened.2⟩ }

/-! ## One line -/

theorem isComment_of_statement (form : ofLine line = .statement) : isComment line = false := by
  unfold ofLine at form
  iterate 7
    split at form
    · cases form
  exact Bool.eq_false_iff.mpr ‹_›

theorem head?_ne_of_unread (form : ofLine line = .statement)
    (unread : Rule.parse? (String.ofList line) = none) : line.head? ≠ some '#' := by
  intro sign
  have noInclusion : Rule.readAs? .inclusion line = none := by
    unfold Rule.parse? at unread
    rw [toList_ofList] at unread
    exact findSome?_eq_none_iff.mp unread .inclusion (by decide)
  have comment : isComment line := by
    simp [isComment, sign, Rule.fits, noInclusion]
  rw [isComment_of_statement form] at comment
  cases comment

theorem sound_skipLine (sound : state.Sound) (line : List Char) : (state.skipLine line).Sound := by
  rw [Reader.skipLine_eq]
  exact { sound with }

theorem sound_step (structured : state.Structured) (sound : state.Sound) (tidy : Tidy line) {start : Nat}
    (success : Reader.step state line start = .ok next) : next.Sound := by
  cases Reader.stepAs_eq_ok success with
  | skip => exact sound_skipLine sound line
  | header _ form opened => exact sound_openProfile sound tidy form opened
  | hat _ form opened => exact sound_openHat sound tidy form opened
  | closing _ _ closed => exact sound_close structured sound closed
  | conditional => exact { sound with }
  | changeHat => exact sound
  | comment _ form => exact sound_addComment sound tidy form
  | statement _ form read placed =>
    have cleared : ReaderState.Sound { state with comments := [] } :=
      { sound with comments := by simp }
    exact sound_place cleared (Rule.faithful_of_parse? tidy form read) placed
  | unfinished _ form unread =>
    refine { sound with pending := ?_ }
    intro statement first same
    cases same
    exact unfinished_of_tidy tidy (head?_ne_of_unread form unread)

end Steps

/-! ## A whole text -/

theorem sound_scan {lines : List (List Char)} (oneLine : ∀ line ∈ lines, '\n' ∉ line)
    {number : Nat} {final : ReaderState} (structured : state.Structured) (sound : state.Sound)
    (success : Reader.scan number lines state = .ok final) : final.Sound := by
  induction lines generalizing number state with
  | nil =>
    cases success
    exact sound
  | cons line rest ih =>
    rw [forall_mem_cons] at oneLine
    rw [Reader.scan_cons] at success
    split at success
    · exact ih oneLine.2 structured sound success
    next nonempty =>
      have tidy : Tidy (trim line) := tidy_trim (by simpa using nonempty) oneLine.1
      have whole : Tidy (Reader.joined state (trim line) number).1 := by
        unfold Reader.joined
        split
        next statement start pending => exact (sound.pending statement start pending).tidy_append tidy
        · exact tidy
      obtain ⟨next, taken, further⟩ := bind_eq_ok.mp success
      have cleared : ReaderState.Sound { state with pending := none } :=
        { sound with pending := fun _ _ impossible => by cases impossible }
      have unread : ReaderState.Structured { state with pending := none } := { structured with }
      have stepped := mapError_eq_ok taken
      exact ih oneLine.2 (structured_turn unread (Reader.turn_of_stepAs stepped))
        (sound_step unread cleared whole stepped) further

/-- Everything in the file stems from lines that were read. -/
structure ParsedFile.Sound (file : ParsedFile) : Prop where
  structured : file.Structured
  preamble : ∀ rule ∈ file.preamble.ruleset.rules, rule.Faithful ∧ rule.kind ∈ Preamble.order
  clear : Rule.Clear file.preamble.ruleset.rules
  profiles : ∀ profile ∈ file.profiles, profile.Every Scope.Sound

theorem sound_scanText {filename content : String}
    (success : Reader.scanText filename content = .ok state) : state.parsed.Sound := by
  obtain ⟨final, scanned, finished⟩ := bind_eq_ok.mp success
  obtain ⟨rfl, _⟩ := Reader.finish_eq_ok finished
  have initial : ReaderState.Sound { filename } := by
    refine ⟨?_, ?_, ?_, ?_, ?_, ?_⟩ <;> simp
  have sound := sound_scan (fun line => oneLine_of_mem_lines) (.initial filename) initial scanned
  exact ⟨(structured_plan (.initial filename) scanned).parsed, sound.preamble, sound.clear, sound.finished⟩

end ArmorPolicy
