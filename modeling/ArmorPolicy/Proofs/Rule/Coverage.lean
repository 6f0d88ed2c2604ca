import ArmorPolicy.Proofs.Glob.Literal
import ArmorPolicy.Proofs.Rule.Reading

/-!
# Coverage goes on

If a rule covers a second one, decisions and audits included, and the second one covers a third one
in whatever sense, then the first one covers the third one in that sense.  Patterns do not compose
that way in general, since coverage compares the language of a pattern with one sample text of the
other; the patterns of logged events do.
-/

namespace ArmorPolicy

open List Checked Extent

variable {file other : File} {rule : Rule}

/-! ## Rules that can be made -/

/-- The rules that can be made: read from a line, or put together by the maker of their kind. -/
inductive Rule.Built : Rule → Prop
  | read {kind : RuleKind} {line : String} {rule : Rule}
      (success : Rule.parseAs kind line = .ok rule) : Built rule
  | abi {base : RuleBase} {path : String} {magic : Bool} {abi : Abi}
      (made : Abi.make base path magic = .ok abi) : Built ⟨base, .abi abi⟩
  | aliasing {base : RuleBase} {path target : String} {aliasing : Aliasing}
      (made : Aliasing.make base path target = .ok aliasing) : Built ⟨base, .aliasing aliasing⟩
  | boolean {base : RuleBase} {name : String} {value : Bool} {setting : BooleanSetting}
      (made : BooleanSetting.make base name value = .ok setting) : Built ⟨base, .boolean setting⟩
  | capability {base : RuleBase} {names : List String} {capability : Capability}
      (made : Capability.ofNames names = .ok capability) : Built ⟨base, .capability capability⟩
  | everyCapability {base : RuleBase} : Built ⟨base, .capability ⟨.all⟩⟩
  | changeProfile {base : RuleBase} {scrubbing : Option Scrubbing}
      {condition target : Extent Pattern} {change : ChangeProfile}
      (made : ChangeProfile.make scrubbing condition target = .ok change) :
      Built ⟨base, .changeProfile change⟩
  | dbus {base : RuleBase} {fields dbus : Dbus} (made : fields.checked = .ok dbus) :
      Built ⟨base, .dbus dbus⟩
  | file {base : RuleBase} {path target : Extent Pattern} {letters : Extent (SortedSet Char)}
      {exec : Option String} {owner : Bool} {file : File} (fileWord permissionsFirst : Bool)
      (made : File.make base.deny path letters exec target owner = .ok file) :
      Built ⟨base, .file (file.withStyle fileWord permissionsFirst)⟩
  | everyFile {base : RuleBase} (owner fileWord permissionsFirst : Bool) :
      Built ⟨base, .file ((File.everything owner).withStyle fileWord permissionsFirst)⟩
  | loggedFile {path letters : String} {owner : Bool} {file : File}
      (made : File.ofLogEvent path letters owner = .ok file) :
      Built ⟨{ origin := .logEvent }, .file file⟩
  | inclusion {base : RuleBase} {path : String} {ifExists magic : Bool} {inclusion : Inclusion}
      (made : Inclusion.make base path ifExists magic = .ok inclusion) :
      Built ⟨base, .inclusion inclusion⟩
  | network {base : RuleBase} {domain type : Extent String} {network : Network}
      (made : Network.make domain type = .ok network) : Built ⟨base, .network network⟩
  | freeform {base : RuleBase} (keyword body : String) :
      Built ⟨base, .freeform (Freeform.make keyword body)⟩
  | ptrace {base : RuleBase} {access : Access} {peer : Extent Pattern} {ptrace : Ptrace}
      (made : Ptrace.make access peer = .ok ptrace) : Built ⟨base, .ptrace ptrace⟩
  | rlimit {base : RuleBase} {resource value : String} {rlimit : Rlimit}
      (made : Rlimit.make base resource value = .ok rlimit) : Built ⟨base, .rlimit rlimit⟩
  | signal {base : RuleBase} {access : Access} {signals : Extent (SortedSet String)}
      {peer : Extent Pattern} {signal : Signal}
      (made : Signal.make access signals peer = .ok signal) : Built ⟨base, .signal signal⟩
  | userns {base : RuleBase} {access : Access} {userns : Userns}
      (made : Userns.make access = .ok userns) : Built ⟨base, .userns userns⟩
  | assignment {base : RuleBase} {name : String} {mode : AssignMode} {values : SortedSet String}
      {assignment : Assignment} (made : Assignment.make base name mode values = .ok assignment) :
      Built ⟨base, .assignment assignment⟩

namespace File

/-- Only the rule for all files has no path.  It grants all permissions and has neither a mode nor
a target. -/
structure Consistent (file : File) : Prop where
  together : file.path.isAll = file.permissions.isAll
  noExec : file.path.isAll = true → file.exec = none
  noTarget : file.path.isAll = true → file.target.isAll = true

/-- The rule for all files, or one that is made from fields, written in whatever style. -/
inductive Made (deny : Bool) : File → Prop
  | everything (owner : Bool) : Made deny (everything owner)
  | fields {path target : Extent Pattern} {letters : Extent (SortedSet Char)} {exec : Option String}
      {owner : Bool} {file : File} (made : make deny path letters exec target owner = .ok file) :
      Made deny file
  | styled {file : File} (made : Made deny file) (fileWord permissionsFirst : Bool) :
      Made deny (file.withStyle fileWord permissionsFirst)

theorem consistent_of_make {deny owner : Bool} {path target : Extent Pattern}
    {letters : Extent (SortedSet Char)} {exec : Option String}
    (made : make deny path letters exec target owner = .ok file) : file.Consistent := by
  unfold make at made
  obtain ⟨permissions, _, made⟩ := bind_eq_ok.mp made
  obtain ⟨mode, _, made⟩ := bind_eq_ok.mp made
  split at made
  · cases made
  next together =>
    split at made
    · cases made
    next bare =>
      split at made
      · cases made
      · cases made
        simp only [bne_iff_ne, ne_eq, Decidable.not_not] at together
        simp only [Bool.and_eq_true, Bool.or_eq_true, not_and, not_or] at bare
        exact ⟨together, fun all => by simpa using (bare all).1, fun all => by simpa using (bare all).2⟩

theorem Made.consistent {deny : Bool} (made : file.Made deny) : file.Consistent := by
  induction made with
  | everything => exact ⟨rfl, fun _ => rfl, fun _ => rfl⟩
  | fields made => exact consistent_of_make made
  | styled _ _ _ ih => exact ⟨ih.together, ih.noExec, ih.noTarget⟩

theorem made_of_ofParts {base : RuleBase} {parts : Parts} (success : ofParts base parts = .ok file) :
    file.Made base.deny := by
  unfold ofParts at success
  split at success
  · cases success
    exact .everything parts.owner
  next entry _ =>
    obtain ⟨path, _, success⟩ := bind_eq_ok.mp success
    obtain ⟨access, _, success⟩ := bind_eq_ok.mp success
    obtain ⟨target, _, success⟩ := bind_eq_ok.mp success
    obtain ⟨plain, made, ⟨⟩⟩ := bind_eq_ok.mp success
    exact .styled (.fields made) entry.fileWord entry.permissionsFirst

theorem made_of_ofLogEvent {path letters : String} {owner : Bool}
    (success : ofLogEvent path letters owner = .ok file) : file.Made false := by
  obtain ⟨access, _, success⟩ := bind_eq_ok.mp success
  obtain ⟨pattern, _, made⟩ := bind_eq_ok.mp success
  exact .fields made

end File

theorem Rule.Built.file_made (built : rule.Built) (body : rule.body = .file file) :
    file.Made rule.base.deny := by
  cases built with
  | @read kind line rule success =>
    have found := Rule.readAs?_of_parseAs success
    have kindExact := Rule.kind_of_readAs? found
    rw [Rule.kind, body] at kindExact
    subst kindExact
    simp only [RuleBody.kind, Rule.readAs?] at found
    obtain ⟨statement, _, base, made⟩ := Rule.readBy_eq_ok found
    obtain ⟨read, inner, shape⟩ := map_eq_ok.mp made
    rw [body] at shape
    cases shape
    rw [base]
    exact File.made_of_ofParts inner
  | file fileWord permissionsFirst made =>
    cases body
    exact .styled (.fields made) fileWord permissionsFirst
  | everyFile owner fileWord permissionsFirst =>
    cases body
    exact .styled (.everything owner) fileWord permissionsFirst
  | loggedFile made =>
    cases body
    exact File.made_of_ofLogEvent made
  | _ => cases body

theorem Rule.Built.file_consistent (built : rule.Built) (body : rule.body = .file file) : file.Consistent :=
  (built.file_made body).consistent

/-! ## Fields -/

namespace Extent

variable {α : Type} {mine theirs : Extent α} {covers : α → α → Bool}

theorem coversBy_trans (trans : ∀ a b c, covers a b → covers b c → covers a c)
    {third : Extent α} (first : mine.coversBy covers theirs)
    (second : theirs.coversBy covers third) : mine.coversBy covers third := by
  cases mine with
  | all => rfl
  | only a =>
    cases theirs with
    | all => cases first
    | only b =>
      cases third with
      | all => cases second
      | only c => exact trans a b c first second

theorem coversBy_beq_trans [BEq α] [LawfulBEq α] {third : Extent α}
    (first : mine.coversBy (· == ·) theirs) (second : theirs.coversBy (· == ·) third) :
    mine.coversBy (· == ·) third := by
  refine coversBy_trans ?_ first second
  intro a b c sameFirst sameSecond
  exact BEq.trans sameFirst sameSecond

theorem coversBy_of_isAll (all : mine.isAll) : mine.coversBy covers theirs := by
  cases mine with
  | all => rfl
  | only a => cases all

theorem isAll_of_coversBy (covered : mine.coversBy covers theirs) (all : theirs.isAll) : mine.isAll := by
  cases mine with
  | all => rfl
  | only a =>
    cases theirs with
    | all => cases covered
    | only b => cases all

def OfEvent (field : Extent Pattern) : Prop := ∀ pattern, field = .only pattern → pattern.OfEvent

theorem OfEvent.coversBy_trans {mine theirs third : Extent Pattern} (event : mine.OfEvent)
    (theirEvent : theirs.OfEvent) (first : mine.coversBy Pattern.covers theirs)
    (second : theirs.coversBy Pattern.covers third) : mine.coversBy Pattern.covers third := by
  cases mine with
  | all => rfl
  | only pattern =>
    cases theirs with
    | all => cases first
    | only other =>
      have same := (event pattern rfl).eq_of_covers (theirEvent other rfl) first
      rw [same]
      exact second

end Extent

theorem all_contains_trans {α : Type} [BEq α] [LawfulBEq α] {first second third : List α}
    (within : second.all first.contains) (further : third.all second.contains) :
    third.all first.contains := by
  simp only [all_eq_true, contains_iff_mem] at within further ⊢
  intro a member
  exact within a (further a member)

theorem Access.covers_trans {implied : String → List String} {mine theirs third : Access}
    (first : mine.covers implied theirs) (second : theirs.covers implied third) :
    mine.covers implied third :=
  coversBy_trans (fun _ _ _ => all_contains_trans) first second

theorem FilePermissions.covers_iff {mine theirs : FilePermissions} :
    mine.covers theirs ↔
      ∀ permission, theirs.contains permission →
        mine.contains permission ∨ (permission = .append ∧ mine.write) := by
  simp only [covers, toList, all_filter, all_eq_true]
  constructor
  · intro granted permission stated
    have given := granted permission (FilePermission.mem_all permission)
    simpa [stated] using given
  · intro granted permission _
    by_cases stated : theirs.contains permission
    · have given := granted permission stated
      simpa [stated] using given
    · simp [stated]

theorem FilePermissions.covers_trans (mine theirs third : FilePermissions)
    (first : mine.covers theirs) (second : theirs.covers third) : mine.covers third := by
  rw [covers_iff] at first second ⊢
  intro permission stated
  rcases second permission stated with held | ⟨rfl, writes⟩
  · exact first permission held
  · rcases first .write writes with held | ⟨impossible, _⟩
    · exact .inr ⟨rfl, held⟩
    · cases impossible

theorem Rlimit.limitCovers_trans {mine theirs third : LimitValue}
    (first : limitCovers mine theirs) (second : limitCovers theirs third) : limitCovers mine third := by
  cases mine <;> cases theirs <;> cases third <;>
    simp only [limitCovers, decide_eq_true_eq, Bool.false_eq_true] at first second ⊢ <;> omega

/-! ## Bodies -/

def RuleBody.patterns : RuleBody → List (Extent Pattern)
  | .changeProfile content => [content.condition, content.target]
  | .dbus content =>
    [content.path, content.name, content.interface, content.member, content.peerName, content.peerLabel]
  | .file content => [content.path, content.target]
  | .ptrace content => [content.peer]
  | .signal content => [content.peer]
  | _ => []

def Rule.OfEvents (rule : Rule) : Prop := ∀ field ∈ rule.body.patterns, field.OfEvent

theorem RuleBase.covers_trans {mine theirs third : RuleBase} {checkDecision checkAudit : Bool}
    (first : mine.covers theirs true true) (second : theirs.covers third checkDecision checkAudit) :
    mine.covers third checkDecision checkAudit := by
  simp only [covers, Bool.true_and, Bool.and_eq_true, Bool.not_eq_true', bne_eq_false_iff_eq] at first
  obtain ⟨⟨⟨sameDeny, _⟩, sameAudit⟩, _⟩ := first
  rw [covers, sameDeny, sameAudit]
  exact second

namespace File

theorem target_of_covers (covered : file.covers other)
    (matters : (other.exec.isSome || links other.permissions)) :
    file.target.coversBy Pattern.covers other.target ∧ file.target.isAll = other.target.isAll := by
  simp only [covers, targetCovers, matters, Bool.not_true, Bool.false_or, Bool.and_eq_true,
    beq_iff_eq] at covered
  exact covered.1.2

/-- A target that matters to a covered rule matters to the covering one, unless that one grants all
permissions. -/
theorem target_matters_of_covers (covered : file.covers other)
    (matters : (other.exec.isSome || links other.permissions)) :
    (file.exec.isSome || links file.permissions) ∨ file.permissions.isAll := by
  simp only [covers, Bool.and_eq_true] at covered
  obtain ⟨⟨⟨⟨_, permissions⟩, exec⟩, _⟩, _⟩ := covered
  rcases Bool.or_eq_true_iff.mp matters with executes | links
  · rcases Bool.or_eq_true_iff.mp exec with none | same
    · rw [Option.isNone_iff_eq_none] at none
      simp [none] at executes
    · rw [eq_of_beq same, executes]
      exact .inl rfl
  · cases mine : file.permissions with
    | all => exact .inr rfl
    | only granted =>
      cases theirs : other.permissions with
      | all => simp [theirs, File.links, value?] at links
      | only asked =>
        rw [mine, theirs] at permissions
        have asksLink : asked.link := by
          simpa [theirs, File.links, value?] using links
        rcases FilePermissions.covers_iff.mp permissions .link asksLink with held | impossible
        · have grants : granted.link := held
          exact .inl (by simp [File.links, value?, grants])
        · cases impossible.1

/-- All of a file rule but its patterns composes: if a rule covers a second one and that one a third
one, then it covers the third one as soon as its path does, and its target where one matters. -/
theorem covers_of_patterns {third : File} (consistent : file.Consistent)
    (otherConsistent : other.Consistent) (covering : file.covers other) (covered : other.covers third)
    (path : file.path.coversBy Pattern.covers third.path)
    (target : (third.exec.isSome || links third.permissions) →
      file.target.coversBy Pattern.covers third.target) : file.covers third := by
  have first := covering
  have second := covered
  simp only [covers, Bool.and_eq_true] at first second ⊢
  obtain ⟨⟨⟨⟨firstPath, firstPermissions⟩, firstExec⟩, _⟩, firstOwner⟩ := first
  obtain ⟨⟨⟨⟨_, secondPermissions⟩, secondExec⟩, _⟩, secondOwner⟩ := second
  refine ⟨⟨⟨⟨path, ?_⟩, ?_⟩, ?_⟩, ?_⟩
  · exact coversBy_trans FilePermissions.covers_trans firstPermissions secondPermissions
  · rcases Bool.or_eq_true_iff.mp secondExec with none | same
    · simp [none]
    · rw [← eq_of_beq same]
      exact firstExec
  · unfold targetCovers
    by_cases matters : (third.exec.isSome || links third.permissions)
    · have sameAll : file.target.isAll = other.target.isAll := by
        rcases target_matters_of_covers covered matters with mattersToo | grantsAll
        · exact (target_of_covers covering mattersToo).2
        · have otherBare : other.path.isAll := by rw [otherConsistent.together, grantsAll]
          have bare := isAll_of_coversBy firstPath otherBare
          rw [consistent.noTarget bare, otherConsistent.noTarget otherBare]
      rw [target matters, sameAll, (target_of_covers covered matters).2]
      simp
    · simp [matters]
  · simp only [Bool.or_eq_true, Bool.not_eq_true'] at firstOwner secondOwner ⊢
    rcases secondOwner with everyone | owned
    · rcases firstOwner with anyone | impossible
      · exact .inl anyone
      · rw [everyone] at impossible
        cases impossible
    · exact .inr owned

theorem covers_trans {third : File} (consistent : file.Consistent)
    (otherConsistent : other.Consistent) (pathEvent : file.path.OfEvent)
    (targetEvent : file.target.OfEvent) (otherPathEvent : other.path.OfEvent)
    (otherTargetEvent : other.target.OfEvent) (covering : file.covers other)
    (covered : other.covers third) : file.covers third := by
  have first := covering
  have second := covered
  simp only [covers, Bool.and_eq_true] at first second
  refine covers_of_patterns consistent otherConsistent covering covered
    (pathEvent.coversBy_trans otherPathEvent first.1.1.1.1 second.1.1.1.1) fun matters => ?_
  have secondTarget := (target_of_covers covered matters).1
  rcases target_matters_of_covers covered matters with mattersToo | grantsAll
  · exact targetEvent.coversBy_trans otherTargetEvent (target_of_covers covering mattersToo).1 secondTarget
  · have otherBare : other.path.isAll := by rw [otherConsistent.together, grantsAll]
    exact coversBy_of_isAll (consistent.noTarget (isAll_of_coversBy first.1.1.1.1 otherBare))

end File

theorem ChangeProfile.covers_trans {change other third : ChangeProfile}
    (events : ∀ field ∈ (RuleBody.changeProfile change).patterns, field.OfEvent)
    (otherEvents : ∀ field ∈ (RuleBody.changeProfile other).patterns, field.OfEvent)
    (first : change.covers other) (second : other.covers third) : change.covers third := by
  simp only [RuleBody.patterns, forall_mem_cons] at events otherEvents
  simp only [covers, Bool.and_eq_true, beq_iff_eq] at first second ⊢
  obtain ⟨⟨sameScrubbing, firstCondition⟩, firstTarget⟩ := first
  obtain ⟨⟨sameScrubbing', secondCondition⟩, secondTarget⟩ := second
  exact ⟨⟨sameScrubbing.trans sameScrubbing',
    events.1.coversBy_trans otherEvents.1 firstCondition secondCondition⟩,
    events.2.1.coversBy_trans otherEvents.2.1 firstTarget secondTarget⟩

theorem Dbus.covers_trans {dbus other third : Dbus}
    (events : ∀ field ∈ (RuleBody.dbus dbus).patterns, field.OfEvent)
    (otherEvents : ∀ field ∈ (RuleBody.dbus other).patterns, field.OfEvent)
    (first : dbus.covers other) (second : other.covers third) : dbus.covers third := by
  simp only [RuleBody.patterns, forall_mem_cons] at events otherEvents
  obtain ⟨path, name, interface, member, peerName, peerLabel, _⟩ := events
  obtain ⟨otherPath, otherName, otherInterface, otherMember, otherPeerName, otherPeerLabel, _⟩ := otherEvents
  simp only [covers, Bool.and_eq_true] at first second ⊢
  obtain ⟨⟨⟨⟨⟨⟨⟨access₁, bus₁⟩, path₁⟩, name₁⟩, interface₁⟩, member₁⟩, peerName₁⟩, peerLabel₁⟩ := first
  obtain ⟨⟨⟨⟨⟨⟨⟨access₂, bus₂⟩, path₂⟩, name₂⟩, interface₂⟩, member₂⟩, peerName₂⟩, peerLabel₂⟩ := second
  refine ⟨⟨⟨⟨⟨⟨⟨?_, ?_⟩, ?_⟩, ?_⟩, ?_⟩, ?_⟩, ?_⟩, ?_⟩
  · exact Access.covers_trans access₁ access₂
  · exact coversBy_beq_trans bus₁ bus₂
  · exact path.coversBy_trans otherPath path₁ path₂
  · exact name.coversBy_trans otherName name₁ name₂
  · exact interface.coversBy_trans otherInterface interface₁ interface₂
  · exact member.coversBy_trans otherMember member₁ member₂
  · exact peerName.coversBy_trans otherPeerName peerName₁ peerName₂
  · exact peerLabel.coversBy_trans otherPeerLabel peerLabel₁ peerLabel₂

theorem Ptrace.covers_trans {ptrace other third : Ptrace}
    (events : ∀ field ∈ (RuleBody.ptrace ptrace).patterns, field.OfEvent)
    (otherEvents : ∀ field ∈ (RuleBody.ptrace other).patterns, field.OfEvent)
    (first : ptrace.covers other) (second : other.covers third) : ptrace.covers third := by
  simp only [RuleBody.patterns, forall_mem_cons] at events otherEvents
  simp only [covers, Bool.and_eq_true] at first second ⊢
  exact ⟨Access.covers_trans first.1 second.1, events.1.coversBy_trans otherEvents.1 first.2 second.2⟩

theorem Signal.covers_trans {signal other third : Signal}
    (events : ∀ field ∈ (RuleBody.signal signal).patterns, field.OfEvent)
    (otherEvents : ∀ field ∈ (RuleBody.signal other).patterns, field.OfEvent)
    (first : signal.covers other) (second : other.covers third) : signal.covers third := by
  simp only [RuleBody.patterns, forall_mem_cons] at events otherEvents
  simp only [covers, Bool.and_eq_true] at first second ⊢
  refine ⟨⟨Access.covers_trans first.1.1 second.1.1, ?_⟩,
    events.1.coversBy_trans otherEvents.1 first.2 second.2⟩
  exact coversBy_trans (fun _ _ _ => all_contains_trans) first.1.2 second.1.2

theorem Capability.covers_trans {capability other third : Capability}
    (first : capability.covers other) (second : other.covers third) : capability.covers third :=
  coversBy_trans (fun _ _ _ => all_contains_trans) first second

theorem Userns.covers_trans {userns other third : Userns} (first : userns.covers other)
    (second : other.covers third) : userns.covers third :=
  coversBy_trans (fun _ _ _ => all_contains_trans) first second

theorem Inclusion.covers_trans {inclusion other third : Inclusion}
    (first : inclusion.covers other) (second : other.covers third) : inclusion.covers third := by
  simp only [covers, Bool.and_eq_true, beq_iff_eq, Bool.not_eq_true', Bool.and_eq_false_iff,
    Bool.not_eq_false'] at first second ⊢
  obtain ⟨⟨samePath, sameMagic⟩, firstExists⟩ := first
  obtain ⟨⟨samePath', sameMagic'⟩, secondExists⟩ := second
  refine ⟨⟨samePath.trans samePath', sameMagic.trans sameMagic'⟩, ?_⟩
  rcases secondExists with required | optional
  · rcases firstExists with requiredToo | impossible
    · exact .inl requiredToo
    · rw [required] at impossible
      cases impossible
  · exact .inr optional

theorem Network.covers_trans {network other third : Network}
    (first : network.covers other) (second : other.covers third) : network.covers third := by
  simp only [covers, Bool.and_eq_true] at first second ⊢
  exact ⟨coversBy_beq_trans first.1 second.1, coversBy_beq_trans first.2 second.2⟩

theorem Rlimit.covers_trans {rlimit other third : Rlimit} (first : rlimit.covers other)
    (second : other.covers third) : rlimit.covers third := by
  simp only [covers, Bool.and_eq_true, beq_iff_eq] at first second ⊢
  exact ⟨first.1.trans second.1, limitCovers_trans first.2 second.2⟩

theorem Assignment.covers_trans {assignment other third : Assignment}
    (first : assignment.covers other) (second : other.covers third) : assignment.covers third := by
  simp only [covers, Bool.and_eq_true, beq_iff_eq] at first second ⊢
  obtain ⟨⟨sameName, sameMode⟩, firstValues⟩ := first
  obtain ⟨⟨sameName', sameMode'⟩, secondValues⟩ := second
  exact ⟨⟨sameName.trans sameName', sameMode.trans sameMode'⟩, all_contains_trans firstValues secondValues⟩

/-! ## Rules -/

def RuleBody.Covers (mine theirs : RuleBody) : Prop := (mine.covers? theirs).getD false = true

theorem RuleBody.Covers.trans {mine theirs third : RuleBody} (events : ∀ field ∈ mine.patterns, field.OfEvent)
    (otherEvents : ∀ field ∈ theirs.patterns, field.OfEvent)
    (consistent : ∀ file, mine = .file file → file.Consistent)
    (otherConsistent : ∀ file, theirs = .file file → file.Consistent)
    (first : mine.Covers theirs) (second : theirs.Covers third) : mine.Covers third := by
  cases mine <;> cases theirs <;> try cases first
  all_goals cases third <;> try cases second
  · exact BEq.trans first second
  · exact BEq.trans first second
  · exact BEq.trans first second
  · exact Capability.covers_trans first second
  · exact ChangeProfile.covers_trans events otherEvents first second
  · exact Dbus.covers_trans events otherEvents first second
  · simp only [patterns, forall_mem_cons] at events otherEvents
    exact File.covers_trans (consistent _ rfl) (otherConsistent _ rfl) events.1 events.2.1 otherEvents.1
      otherEvents.2.1 first second
  · exact Inclusion.covers_trans first second
  · exact Network.covers_trans first second
  · exact BEq.trans first second
  · exact Ptrace.covers_trans events otherEvents first second
  · exact Rlimit.covers_trans first second
  · exact Signal.covers_trans events otherEvents first second
  · exact Userns.covers_trans first second
  · exact Assignment.covers_trans first second

theorem Rule.coversWith_trans {other third : Rule} {checkDecision checkAudit : Bool}
    (built : rule.Built) (otherBuilt : other.Built) (events : rule.OfEvents)
    (otherEvents : other.OfEvents) (first : rule.coversWith true true other)
    (second : other.coversWith checkDecision checkAudit third) :
    rule.coversWith checkDecision checkAudit third := by
  simp only [coversWith, Bool.and_eq_true] at first second ⊢
  exact ⟨RuleBase.covers_trans first.1 second.1,
    RuleBody.Covers.trans events otherEvents (fun _ => built.file_consistent)
      (fun _ => otherBuilt.file_consistent) first.2 second.2⟩

end ArmorPolicy
