import ArmorPolicy.Proofs.Include.Load
import ArmorPolicy.Proofs.Profile.Header

/-!
# Reading a listing

In a session where included files are not read and no profile needs hats, reading a text depends on
the text alone.  Where every line of a listing is then read as what it states, the whole listing is read
as the file that it shows.
-/

namespace ArmorPolicy

open SortedMap List Text Reader

variable {file : ParsedFile} {profile : Profile} {state : ReaderState}
  {rule : Rule} {ruleset : Ruleset} {child scope : Scope}

/-! ## Plain sessions -/

/-- Included files are not read, and no profile needs hats. -/
structure Session.Plain (session : Session) : Prop where
  noIncludes : session.config.resolveIncludes = false
  noHats : session.config.requiredHats = []

theorem Session.Plain.unresolved : Session.unresolved.Plain := ⟨rfl, rfl⟩

/-- In a plain session the reading gives `result` and leaves nothing but warnings. -/
def Reading.Gives {α : Type} (reading : Reading α) (result : Checked α) : Prop :=
  ∀ session : Session, session.Plain →
    ∃ warnings, reading.outcome session = (result, { session with warnings })

namespace Reader

abbrev step : ReaderState → List Char → Nat → Checked ReaderState := stepAs .profiles fun _ => []

abbrev scan (number : Nat) (lines : List (List Char)) (state : ReaderState) : Checked ReaderState :=
  (plan .profiles (fun _ => []) number lines state).result

/-- The state after the lines of a text, if nothing is left open. -/
abbrev scanText (filename content : String) : Checked ReaderState :=
  (planText .profiles (fun _ => []) filename content).result

theorem scan_cons (number : Nat) (line : List Char) (rest : List (List Char)) (state : ReaderState) :
    scan number (line :: rest) state =
      if (trim line).isEmpty then scan (number + 1) rest state
      else
        (step { state with pending := none } (joined state (trim line) number).1
            (joined state (trim line) number).2).mapError
          (fun error => error.located state.filename number) >>= scan (number + 1) rest := by
  simp only [scan, step, plan]
  split
  · rfl
  · cases stepAs .profiles (fun _ => []) { state with pending := none } (joined state (trim line) number).1
      (joined state (trim line) number).2 <;> rfl

theorem gives_text (files : FileSystem) (content filename : String) :
    (Reading.text files content filename).Gives ((scanText filename content).map ReaderState.parsed) := by
  intro session plain
  obtain ⟨warnings, outcome⟩ := Include.follows_text files content filename session rfl rfl
  have noHats : session.config.hatsFor = fun _ => [] :=
    funext fun name => by simp [Config.hatsFor, plain.noHats]
  rw [Include.loadText_unresolved plain.noIncludes, noHats] at outcome
  exact ⟨warnings, outcome⟩

theorem outcome_text_eq_ok {files : FileSystem} {content filename : String} {session after : Session}
    {file : ParsedFile} (plain : session.Plain)
    (success : (Reading.text files content filename).outcome session = (.ok file, after)) :
    ∃ state, scanText filename content = .ok state ∧ state.parsed = file := by
  obtain ⟨warnings, outcome⟩ := gives_text files content filename session plain
  rw [success] at outcome
  exact Checked.map_eq_ok.mp (Prod.mk.inj outcome).1.symm

end Reader

/-! ## Steps over complete lines -/

/-- Complete lines lead from one state to another. -/
inductive Steps : ReaderState → List (List Char) → ReaderState → Prop
  | nil (state : ReaderState) : Steps state [] state
  | cons {state next final : ReaderState} {line : List Char} {rest : List (List Char)}
      (clear : state.pending = none) (taken : ∀ start, Reader.step state line start = .ok next)
      (further : Steps next rest final) : Steps state (line :: rest) final

namespace Steps

theorem single {next : ReaderState} {line : List Char} (clear : state.pending = none)
    (taken : ∀ start, step state line start = .ok next) : Steps state [line] next :=
  .cons clear taken (.nil next)

theorem append {next final : ReaderState} {first second : List (List Char)}
    (start : Steps state first next) (rest : Steps next second final) :
    Steps state (first ++ second) final := by
  induction start with
  | nil => exact rest
  | cons clear taken _ ih => exact .cons clear taken (ih rest)

theorem scan_eq_ok {final : ReaderState} {lines : List (List Char)}
    (steps : Steps state (content lines) final) (number : Nat) : scan number lines state = .ok final := by
  induction lines generalizing state number with
  | nil =>
    cases steps
    rfl
  | cons line rest ih =>
    rw [content_cons] at steps
    rw [scan_cons]
    by_cases blank : (trim line).isEmpty
    · rw [if_pos blank] at steps ⊢
      exact ih steps (number + 1)
    · rw [if_neg blank] at steps ⊢
      cases steps with
      | cons clear taken further =>
        have unchanged : { state with pending := none } = state := by rw [← clear]
        simp only [joined, clear, unchanged, taken]
        exact ih further (number + 1)

end Steps

/-! ## Lines that are read as what they state -/

/-- The statement of the rule is read as the rule. -/
structure Rule.Faithful (rule : Rule) : Prop where
  tidy : Tidy rule.writtenLine
  form : LineForm.ofLine rule.writtenLine = .statement
  read : Rule.parse? (String.ofList rule.writtenLine) = some (.ok rule)

namespace Scope

/-- Every line of the scope's listing is read as what it states. -/
structure Faithful (scope : Scope) : Prop where
  comments : ∀ comment ∈ scope.initialComment,
    Tidy comment.toList ∧ LineForm.ofLine comment.toList = .comment ∧
      ReaderState.lastModified.isPrefixOf comment.toList = false
  header : Tidy (scope.header 0).toList
  form : LineForm.ofLine (scope.header 0).toList = scope.form
  attachment : ∀ pattern, scope.attachment = some pattern →
    Pattern.ofText pattern.glob true = .ok pattern
  flags : (scope.flagsText.map Flags.ofText).getD .empty = scope.flags
  rules : ∀ rule ∈ scope.rules.rules, rule.Faithful ∧ rule.kind ∈ Ruleset.scopeOrder

theorem Faithful.tidyLines (faithful : scope.Faithful) : scope.TidyLines .asWritten :=
  ⟨fun comment member => (faithful.comments comment member).1, faithful.header, fun _ =>
    Ruleset.listed_sections fun rule member => (faithful.rules rule member).1.tidy⟩

end Scope

/-! ## Places of scopes -/

namespace Scope

structure Root (scope : Scope) : Prop where
  kind : scope.kind = .profile
  inFile : scope.external = false
  parent : scope.parent = none
  name : ReaderState.splitDoubleSlash? scope.name.toList = none

structure ExternalHatOf (child : Scope) (root : String) : Prop where
  kind : child.kind = .hat
  external : child.external = true
  parent : child.parent = some root
  name : ReaderState.splitDoubleSlash? child.fullName.toList =
    some (root.toList, child.name.toList)

structure InternalHatOf (child : Scope) (root : String) : Prop where
  kind : child.kind = .hat
  external : child.external = false
  parent : child.parent = some root
  word : child.profileWord = false
  attachment : child.attachment = none
  xattrs : child.xattrs = none
  comment : child.initialComment = []

structure InnerProfileOf (child : Scope) (root : String) : Prop where
  kind : child.kind = .child
  external : child.external = false
  parent : child.parent = some root
  word : child.profileWord = true
  comment : child.initialComment = []

end Scope

/-! ## Rules -/

namespace ReaderState

/-- A state between statements, with no conditional block open. -/
def ready (filename : String) (preamble : Preamble) (finished stack : List Profile)
    (comments : List String) : ReaderState :=
  { filename, preamble, finished, names := finished.map fun profile => profile.scope.name, stack, comments }

end ReaderState

namespace Scope

def addAll (scope : Scope) (rules : List Rule) : Scope :=
  { scope with rules := ⟨scope.rules.rules ++ rules⟩ }

theorem addAll_nil (scope : Scope) : scope.addAll [] = scope := by simp [addAll]

theorem addAll_addAll (scope : Scope) (first second : List Rule) :
    (scope.addAll first).addAll second = scope.addAll (first ++ second) := by
  simp [addAll]

theorem addToScope_eq_ok (inside : rule.kind ∈ Ruleset.scopeOrder) (scope : Scope) :
    ReaderState.addToScope scope rule = .ok (scope.addAll [rule]) := by
  have noDefinition : ¬(rule.kind = .assignment || rule.kind = .boolean) := by
    intro definition
    rcases Bool.or_eq_true _ _ ▸ definition with assignment | boolean
    · rw [of_decide_eq_true assignment] at inside
      exact absurd inside (by decide)
    · rw [of_decide_eq_true boolean] at inside
      exact absurd inside (by decide)
  have known : Ruleset.scopeOrder.contains rule.kind := contains_iff_mem.mpr inside
  rw [ReaderState.addToScope, if_neg noDefinition, addRule, Ruleset.addInside, if_pos known]
  rfl

end Scope

def Profile.addAll (profile : Profile) (rules : List Rule) : Profile :=
  { profile with scope := profile.scope.addAll rules }

theorem step_statement (faithful : rule.Faithful) (active : state.skipping = 0) (start : Nat) :
    step state rule.writtenLine start = { state with comments := [] }.place .profiles rule := by
  simp [stepAs, active, faithful.form, faithful.read]

section Reading

variable {filename : String} {preamble : Preamble} {finished : List Profile}

open ReaderState (ready)

theorem steps_rules (below : List Profile) {rules : List Rule}
    (faithful : ∀ rule ∈ rules, rule.Faithful ∧ rule.kind ∈ Ruleset.scopeOrder) :
    Steps (ready filename preamble finished (profile :: below) []) (rules.map Rule.writtenLine)
      (ready filename preamble finished (profile.addAll rules :: below) []) := by
  induction rules generalizing profile with
  | nil =>
    rw [Profile.addAll, Scope.addAll_nil]
    exact .nil _
  | cons rule rules ih =>
    rw [forall_mem_cons] at faithful
    obtain ⟨⟨first, kind⟩, others⟩ := faithful
    have placed : ∀ start,
        step (ready filename preamble finished (profile :: below) []) rule.writtenLine start =
          .ok (ready filename preamble finished (profile.addAll [rule] :: below) []) := by
      intro start
      rw [step_statement first rfl]
      simp only [ready, ReaderState.place, Scope.addToScope_eq_ok kind]
      rfl
    have together : (profile.addAll [rule]).addAll rules = profile.addAll (rule :: rules) := by
      simp [Profile.addAll, Scope.addAll_addAll]
    have rest := @ih (profile.addAll [rule]) others
    rw [together] at rest
    exact .cons rfl placed rest

/-! ## Headers -/

theorem steps_comments (before : List String) {comments : List String} (faithful : ∀ comment ∈ comments,
      Tidy comment.toList ∧ LineForm.ofLine comment.toList = .comment ∧
        ReaderState.lastModified.isPrefixOf comment.toList = false) :
    Steps (ready filename preamble finished [] before) (comments.map String.toList)
      (ready filename preamble finished [] (before ++ comments)) := by
  induction comments generalizing before with
  | nil =>
    rw [append_nil]
    exact .nil _
  | cons comment comments ih =>
    rw [forall_mem_cons] at faithful
    obtain ⟨⟨_, form, current⟩, others⟩ := faithful
    have kept : ∀ start,
        step (ready filename preamble finished [] before) comment.toList start =
          .ok (ready filename preamble finished [] (before ++ [comment])) := by
      intro start
      simp [stepAs, ready, form, ReaderState.addComment, current]
    have rest : Steps (ready filename preamble finished [] (before ++ [comment])) _
        (ready filename preamble finished [] (before ++ [comment] ++ comments)) :=
      ih (before ++ [comment]) others
    rw [append_assoc] at rest
    exact .cons rfl kept rest

def Scope.opened (filename : String) (scope : Scope) : Scope :=
  { scope.reread filename with
    rules := {}
    parent := if scope.external then scope.parent else none }

/-- The header of a scope that shows its name without a sign. -/
def Scope.headerLine (scope : Scope) : HeaderLine :=
  { scope.details with name := scope.shownName, profileWord := scope.worded }

theorem Scope.Faithful.dressed_eq_ok {base : Scope} (faithful : scope.Faithful) :
    ReaderState.dressed base scope.headerLine =
      .ok { base with
        profileWord := scope.worded
        attachment := scope.attachment
        xattrs := scope.xattrs
        flags := scope.flags
        headerComment := scope.headerComment } := by
  unfold ReaderState.dressed Scope.headerLine Scope.details
  cases attached : scope.attachment with
  | none => simp [faithful.flags, pure, Except.pure, bind, Except.bind]
  | some pattern =>
    simp [faithful.attachment pattern attached, faithful.flags, pure, Except.pure, bind,
      Except.bind, Except.map]

theorem step_header (faithful : scope.Faithful) (active : state.skipping = 0)
    (unsigned : scope.signed = false) (start : Nat) :
    step state (scope.header 0).toList start = state.openProfile .profiles scope.headerLine := by
  simp [stepAs, active, faithful.form, Scope.form, unsigned, Scope.headerLine]

/-- The header of the scope opens it. -/
abbrev HeaderOpens (filename : String) (preamble : Preamble) (finished below : List Profile)
    (comments : List String) (scope : Scope) : Prop :=
  ∀ start, step (ready filename preamble finished below comments) (scope.header 0).toList start =
    .ok (ready filename preamble finished ({ scope := scope.opened filename } :: below) [])

theorem step_topHeader (faithful : scope.Faithful) (base : Scope) (unsigned : scope.signed = false)
    (top : (ready filename preamble finished [] scope.initialComment).topScope scope.shownName =
      .ok base) (opened : { base with
        profileWord := scope.worded
        attachment := scope.attachment
        xattrs := scope.xattrs
        flags := scope.flags
        headerComment := scope.headerComment
        initialComment := scope.initialComment } = scope.opened filename) :
    HeaderOpens filename preamble finished [] scope.initialComment scope := by
  intro start
  have named : scope.headerLine.name = scope.shownName := rfl
  rw [step_header faithful rfl unsigned]
  unfold ReaderState.openProfile ReaderState.openedScope
  simp only [ready] at top ⊢
  simp [named, top, faithful.dressed_eq_ok, ← opened, bind, Except.bind, pure, Except.pure]

theorem step_rootHeader (faithful : scope.Faithful) (root : scope.Root) :
    HeaderOpens filename preamble finished [] scope.initialComment scope := by
  intro start
  have unsigned : scope.signed = false := by simp [Scope.signed, root.kind]
  refine step_topHeader faithful { name := scope.name, kind := .profile, filename } unsigned ?_ ?_ start
  · simp [ReaderState.topScope, Scope.shownName, root.inFile, root.name, ready]
  · simp [Scope.opened, Scope.reread, unsigned, root.kind, root.inFile]

theorem step_externalHeader {root : String} (faithful : scope.Faithful) (hat : scope.ExternalHatOf root)
    (known : finished.any (fun profile => profile.scope.name == root)) :
    HeaderOpens filename preamble finished [] scope.initialComment scope := by
  intro start
  have unsigned : scope.signed = false := by simp [Scope.signed, hat.external]
  refine step_topHeader faithful
    { name := scope.name, kind := .hat, filename, external := true, parent := some root } unsigned
    ?_ ?_ start
  · simp [ReaderState.topScope, Scope.shownName, hat.external, hat.name, ready, known]
  · simp [Scope.opened, Scope.reread, unsigned, hat.kind, hat.external, hat.parent]

theorem step_innerHeader (faithful : scope.Faithful)
    (inner : scope.InnerProfileOf profile.scope.name) (root : profile.scope.kind = .profile)
    (below : List Profile) : HeaderOpens filename preamble finished (profile :: below) [] scope := by
  intro start
  have unsigned : scope.signed = false := by simp [Scope.signed, inner.kind]
  have named : scope.headerLine.name = scope.name := if_neg (by simp [inner.external])
  have worded : scope.headerLine.profileWord := by simp [Scope.headerLine, Scope.worded, inner.word]
  have opened : scope.opened filename =
      { name := scope.name, kind := .child, filename, profileWord := scope.worded
        attachment := scope.attachment, xattrs := scope.xattrs, flags := scope.flags
        headerComment := scope.headerComment } := by
    simp [Scope.opened, Scope.reread, unsigned, inner.kind, inner.external, inner.comment]
  rw [step_header faithful rfl unsigned]
  simp [ReaderState.openProfile, ReaderState.openedScope, ready, ReaderState.innerScope, root, named, worded,
    faithful.dressed_eq_ok, opened, bind, Except.bind, pure, Except.pure]

theorem step_hatHeader (faithful : scope.Faithful) (hat : scope.InternalHatOf profile.scope.name)
    (root : profile.scope.kind = .profile) (fresh : profile.inner.contains scope.name = false)
    (below : List Profile) : HeaderOpens filename preamble finished (profile :: below) [] scope := by
  intro start
  have signed : scope.signed := by simp [Scope.signed, hat.kind, hat.external, hat.word]
  have form : scope.form = .hat
      { name := scope.name, flags := scope.flagsText, comment := scope.headerComment } := by
    simp [Scope.form, signed, Scope.shownName, hat.external]
  have opened : scope.opened filename =
      { name := scope.name, kind := .hat, filename, flags := scope.flags
        headerComment := scope.headerComment } := by
    simp [Scope.opened, Scope.reread, signed, hat.kind, hat.external, hat.comment, hat.word,
      hat.attachment, hat.xattrs]
  simp [stepAs, ready, faithful.form, form, ReaderState.openHat, root, fresh, opened, faithful.flags]

/-! ## Children -/

theorem ofLine_closing : LineForm.ofLine ['}'] = .closing := by decide

theorem Scope.addAll_opened (scope : Scope) :
    (scope.opened filename).addAll (scope.rules.grouped Ruleset.scopeOrder).rules =
      { scope.reread filename with parent := if scope.external then scope.parent else none } := by
  simp [Scope.addAll, Scope.opened, Scope.reread]

theorem Scope.Faithful.grouped (faithful : scope.Faithful) :
    ∀ rule ∈ (scope.rules.grouped Ruleset.scopeOrder).rules, rule.Faithful ∧ rule.kind ∈ Ruleset.scopeOrder :=
  fun rule member => faithful.rules rule (Ruleset.mem_grouped.mp member).1

theorem steps_body (faithful : scope.Faithful) {filled : Profile} (below : List Profile)
    (result : profile.addAll (scope.rules.grouped Ruleset.scopeOrder).rules = filled) :
    Steps (ready filename preamble finished (profile :: below) [])
      ((scope.rules.grouped Ruleset.scopeOrder).rules.map Rule.writtenLine)
      (ready filename preamble finished (filled :: below) []) := by
  rw [← result]
  exact steps_rules below faithful.grouped

def Profile.withChild (filename : String) (profile : Profile) (child : Scope) : Profile :=
  profile.withInner (profile.inner.insert child.name { scope := child.reread filename })

theorem Profile.addInner_eq_ok (filename : String) (root : profile.scope.kind = .profile)
    (fresh : profile.inner.contains child.name = false)
    (parent : child.parent = some profile.scope.name) (unset : Option String) :
    profile.addInner { scope := { child.reread filename with parent := unset } } =
      .ok (profile.withChild filename child) := by
  refine Profile.addInner_eq_ok_iff.mpr ⟨root, fresh, ?_⟩
  rw [← parent]
  rfl

theorem steps_insideChild (faithful : child.Faithful)
    (inside : child.InternalHatOf profile.scope.name ∨ child.InnerProfileOf profile.scope.name)
    (root : profile.scope.kind = .profile) (fresh : profile.inner.contains child.name = false) :
    Steps (ready filename preamble finished [profile] []) (child.script [])
      (ready filename preamble finished [profile.withChild filename child] []) := by
  have header : HeaderOpens filename preamble finished [profile] [] child := by
    rcases inside with hat | inner
    · exact step_hatHeader faithful hat root fresh []
    · exact step_innerHeader faithful inner root []
  have place : child.initialComment = [] ∧ child.external = false ∧
      child.parent = some profile.scope.name := by
    rcases inside with hat | inner
    · exact ⟨hat.comment, hat.external, hat.parent⟩
    · exact ⟨inner.comment, inner.external, inner.parent⟩
  obtain ⟨comment, external, parent⟩ := place
  have filled : Profile.addAll { scope := child.opened filename } (child.rules.grouped Ruleset.scopeOrder).rules =
      { scope := { child.reread filename with parent := none } } := by
    simp [Profile.addAll, Scope.addAll_opened, external]
  have closing : ∀ start,
      step (ready filename preamble finished
          [{ scope := { child.reread filename with parent := none } }, profile] []) ['}'] start =
        .ok (ready filename preamble finished [profile.withChild filename child] []) := by
    intro start
    have added := Profile.addInner_eq_ok filename root fresh parent none
    simp only [stepAs, ready, ofLine_closing, ReaderState.close, added]
    rfl
  have whole := (Steps.cons rfl header (steps_body faithful [profile] filled)).append (.single rfl closing)
  simpa [Scope.script, comment] using whole

def Scope.entries (filename : String) (children : List Scope) : List (String × Profile) :=
  children.map fun child => (child.name, { scope := child.reread filename })

def Profile.withChildren (filename : String) (profile : Profile) (children : List Scope) : Profile :=
  profile.withInner (profile.inner.insertAll (Scope.entries filename children))

theorem Profile.withChildren_withChild (child : Scope) (children : List Scope) :
    (profile.withChild filename child).withChildren filename children =
      profile.withChildren filename (child :: children) := by
  rw [withChildren, withChild, inner_withInner]
  rfl

theorem steps_children (place : Profile → ReaderState) {fits : Scope → Prop} {children : List Scope}
    (fit : ∀ child ∈ children, fits child) (profile : Profile) (same : profile.scope = scope)
    (one : ∀ profile child, profile.scope = scope → fits child →
      profile.inner.contains child.name = false →
      Steps (place profile) (child.script []) (place (profile.withChild filename child)))
    (distinct : ((Scope.entries filename children ++ profile.inner.entries).map Prod.fst).Nodup) :
    Steps (place profile) (children.flatMap fun child => child.script [])
      (place (profile.withChildren filename children)) := by
  induction children generalizing profile with
  | nil =>
    have unchanged : profile.withChildren filename [] = profile :=
      Profile.ext_inner rfl (Profile.inner_withInner profile profile.inner)
    rw [unchanged]
    exact .nil _
  | cons child children ih =>
    rw [forall_mem_cons] at fit
    have fresh : profile.inner.contains child.name = false :=
      contains_eq_false_iff.mpr (absent_of_nodup distinct)
    have apart : ((Scope.entries filename children ++
        (profile.withChild filename child).inner.entries).map Prod.fst).Nodup := by
      rw [Profile.withChild, Profile.inner_withInner]
      exact nodup_insert distinct
    rw [← Profile.withChildren_withChild]
    exact (one profile child same fit.1 fresh).append (ih fit.2 (profile.withChild filename child) same apart)

theorem giveToParent_append {finished : List Profile}
    (others : ∀ known ∈ finished, known.scope.name ≠ profile.scope.name) (hat : Profile) :
    ReaderState.giveToParent profile.scope.name hat (finished ++ [profile]) =
      (profile.addInner hat).map fun profile => finished ++ [profile] := by
  induction finished with
  | nil => simp [ReaderState.giveToParent]
  | cons known finished ih =>
    rw [forall_mem_cons] at others
    rw [cons_append, ReaderState.giveToParent, if_neg others.1, ih others.2]
    cases profile.addInner hat <;> rfl

theorem steps_outsideChild (root : profile.scope.kind = .profile)
    (others : ∀ known ∈ finished, known.scope.name ≠ profile.scope.name) (faithful : child.Faithful)
    (hat : child.ExternalHatOf profile.scope.name) (fresh : profile.inner.contains child.name = false) :
    Steps (ready filename preamble (finished ++ [profile]) [] []) (child.script [])
      (ready filename preamble (finished ++ [profile.withChild filename child]) [] []) := by
  have known : (finished ++ [profile]).any (fun known => known.scope.name == profile.scope.name) =
      true := by simp
  have filled : Profile.addAll { scope := child.opened filename } (child.rules.grouped Ruleset.scopeOrder).rules =
      { scope := child.reread filename } := by
    simp [Profile.addAll, Scope.addAll_opened, hat.external, Scope.reread]
  have closing : ∀ start,
      step (ready filename preamble (finished ++ [profile]) [{ scope := child.reread filename }] []) ['}'] start =
        .ok (ready filename preamble (finished ++ [profile.withChild filename child]) [] []) := by
    intro start
    have external : (child.reread filename).external := hat.external
    have parent : (child.reread filename).parent.getD "" = profile.scope.name := by
      change child.parent.getD "" = profile.scope.name
      rw [hat.parent]
      rfl
    have added : profile.addInner { scope := child.reread filename } = .ok (profile.withChild filename child) :=
      Profile.addInner_eq_ok filename root fresh hat.parent child.parent
    have given := giveToParent_append others { scope := child.reread filename }
    rw [added] at given
    simp only [stepAs, ready, ofLine_closing, ReaderState.close]
    rw [if_pos external, parent, given]
    simp [Except.map, Profile.withChild]
  have whole := (steps_comments [] faithful.comments).append
    ((Steps.cons rfl (step_externalHeader faithful hat known) (steps_body faithful [] filled)).append
      (.single rfl closing))
  simpa [Scope.script] using whole

/-! ## Profiles -/

/-- Every line of the profile's listing is read as what it states. -/
structure Profile.Faithful (profile : Profile) : Prop where
  scope : profile.scope.Faithful
  root : profile.scope.Root
  keys : ∀ entry ∈ profile.inner.entries, entry.2.scope.name = entry.1
  alone : ∀ child ∈ profile.inner.values, child.inner = .empty
  children : ∀ child ∈ profile.inner.values, child.scope.Faithful ∧
    (child.scope.ExternalHatOf profile.scope.name ∨ child.scope.InternalHatOf profile.scope.name ∨
      child.scope.InnerProfileOf profile.scope.name)

namespace Profile

def insideScopes (profile : Profile) : List Scope := profile.inside.map Profile.scope

def outsideScopes (profile : Profile) : List Scope := profile.outside.map Profile.scope

theorem Faithful.inside (faithful : profile.Faithful) :
    ∀ child ∈ profile.insideScopes, child.Faithful ∧
      (child.InternalHatOf profile.scope.name ∨ child.InnerProfileOf profile.scope.name) := by
  intro scope member
  obtain ⟨child, held, rfl⟩ := mem_map.mp member
  obtain ⟨among, here⟩ := mem_filter.mp held
  obtain ⟨lines, place⟩ := faithful.children child among
  refine ⟨lines, place.resolve_left ?_⟩
  intro hat
  rw [hat.external] at here
  cases here

theorem Faithful.outside (faithful : profile.Faithful) :
    ∀ child ∈ profile.outsideScopes, child.Faithful ∧ child.ExternalHatOf profile.scope.name := by
  intro scope member
  obtain ⟨child, held, rfl⟩ := mem_map.mp member
  obtain ⟨among, outside⟩ := mem_filter.mp held
  obtain ⟨lines, place⟩ := faithful.children child among
  refine ⟨lines, place.resolve_right ?_⟩
  rintro (hat | inner)
  · rw [hat.external] at outside
    cases outside
  · rw [inner.external] at outside
    cases outside

theorem script_eq_of_alone (alone : profile.inner = .empty) : profile.script = profile.scope.script [] := by
  rw [script_eq, Profile.inside, Profile.outside, alone]
  exact append_nil _

theorem Faithful.script_eq (faithful : profile.Faithful) :
    profile.script = profile.scope.script (profile.insideScopes.flatMap fun child => child.script []) ++
      profile.outsideScopes.flatMap fun child => child.script [] := by
  have each : ∀ child ∈ profile.inner.values, child.script = child.scope.script [] :=
    fun child member => script_eq_of_alone (faithful.alone child member)
  have inside : profile.inside.flatMap script = profile.inside.flatMap fun child => child.scope.script [] :=
    flatMap_congr fun child member => each child (mem_filter.mp member).1
  have outside : profile.outside.flatMap script = profile.outside.flatMap fun child => child.scope.script [] :=
    flatMap_congr fun child member => each child (mem_filter.mp member).1
  rw [Profile.script_eq, insideScopes, outsideScopes, flatMap_map, flatMap_map, inside, outside]

theorem Faithful.entries_perm (faithful : profile.Faithful) :
    (Scope.entries filename profile.outsideScopes ++ Scope.entries filename profile.insideScopes).Perm
      (profile.reread filename).inner.entries := by
  have all : Scope.entries filename (profile.inner.values.map Profile.scope) = (profile.reread filename).inner.entries := by
    rw [reread, inner_mapScopes]
    simp only [Scope.entries, SortedMap.values, SortedMap.mapValues, map_map]
    apply map_congr_left
    intro entry member
    have alone := eq_of_inner_eq_empty (faithful.alone entry.2 (mem_map_of_mem member))
    rw [Function.comp_apply, Function.comp_apply, faithful.keys entry member, alone]
    rfl
  rw [← all, Scope.entries, Scope.entries, Scope.entries, ← map_append, outsideScopes, insideScopes, ← map_append]
  exact ((filter_append_perm (fun child => child.scope.external) profile.inner.values).map _).map _

def closed (filename : String) (profile : Profile) : Profile :=
  { scope := profile.scope.reread filename : Profile }.withChildren filename profile.insideScopes

end Profile

theorem steps_closed (faithful : profile.Faithful)
    (distinct : ((Scope.entries filename profile.insideScopes).map Prod.fst).Nodup)
    (fresh : ∀ known ∈ finished, known.scope.name ≠ profile.scope.name) :
    Steps (ready filename preamble finished [] [])
      (profile.scope.script (profile.insideScopes.flatMap fun child => child.script []))
      (ready filename preamble (finished ++ [profile.closed filename]) [] []) := by
  have root := faithful.root
  have unset : { profile.scope.reread filename with parent := none } = profile.scope.reread filename := by
    rw [← root.parent]
    rfl
  have filled : Profile.addAll { scope := profile.scope.opened filename }
      (profile.scope.rules.grouped Ruleset.scopeOrder).rules = { scope := profile.scope.reread filename } := by
    simp only [Profile.addAll, Scope.addAll_opened, root.inFile]
    rw [← unset]
    rfl
  have children : Steps
      (ready filename preamble finished [{ scope := profile.scope.reread filename }] []) _
      (ready filename preamble finished [profile.closed filename] []) :=
    steps_children (fun profile => ready filename preamble finished [profile] []) faithful.inside
      { scope := profile.scope.reread filename } rfl
      (fun _ _ same fits => steps_insideChild fits.1 (same ▸ fits.2) (same ▸ root.kind))
      (by change ((_ ++ []).map Prod.fst).Nodup; rwa [append_nil])
  have closing : ∀ start,
      step (ready filename preamble finished [profile.closed filename] []) ['}'] start =
        .ok (ready filename preamble (finished ++ [profile.closed filename]) [] []) := by
    intro start
    have external : (profile.closed filename).scope.external = false := root.inFile
    have unknown : (finished.any fun known =>
        known.scope.name == (profile.closed filename).scope.name) = false := by
      simp only [any_eq_false, beq_iff_eq]
      exact fresh
    simp [stepAs, ready, ofLine_closing, ReaderState.close, external, ReaderState.finishProfile,
      unknown]
  have whole := (steps_comments [] faithful.scope.comments).append
    ((Steps.cons rfl (step_rootHeader faithful.scope root)
      ((steps_body faithful.scope [] filled).append children)).append (.single rfl closing))
  simpa [Scope.script] using whole

theorem steps_profile (faithful : profile.Faithful)
    (fresh : ∀ known ∈ finished, known.scope.name ≠ profile.scope.name) :
    Steps (ready filename preamble finished [] []) profile.script
      (ready filename preamble (finished ++ [profile.reread filename]) [] []) := by
  have distinct : ((Scope.entries filename profile.outsideScopes ++
      Scope.entries filename profile.insideScopes).map Prod.fst).Nodup :=
    ((faithful.entries_perm.map Prod.fst).nodup_iff).mpr (nodup_keys _)
  have insideDistinct : ((Scope.entries filename profile.insideScopes).map Prod.fst).Nodup := by
    rw [map_append] at distinct
    exact (nodup_append.mp distinct).2.1
  have insidePerm : (profile.closed filename).inner.entries.Perm (Scope.entries filename profile.insideScopes) := by
    rw [Profile.closed, Profile.withChildren, Profile.inner_withInner]
    exact insertAll_empty_perm insideDistinct
  have together := insidePerm.append_left (Scope.entries filename profile.outsideScopes)
  have outsideDistinct : ((Scope.entries filename profile.outsideScopes ++
      (profile.closed filename).inner.entries).map Prod.fst).Nodup :=
    ((together.map Prod.fst).nodup_iff).mpr distinct
  have complete : (profile.closed filename).withChildren filename profile.outsideScopes =
      profile.reread filename := by
    have perm := ((insertAll_perm outsideDistinct).trans together).trans faithful.entries_perm
    refine Profile.ext_inner rfl ?_
    rw [Profile.withChildren, Profile.inner_withInner]
    exact eq_of_perm perm
  rw [← complete, faithful.script_eq]
  refine (steps_closed faithful insideDistinct fresh).append ?_
  refine steps_children (fun profile => ready filename preamble (finished ++ [profile]) [] [])
    faithful.outside (profile.closed filename) rfl (fun _ _ same fits => ?_) outsideDistinct
  exact steps_outsideChild (same ▸ faithful.root.kind) (same ▸ fresh) fits.1 (same ▸ fits.2)

theorem steps_profiles {profiles : List Profile} (faithful : ∀ profile ∈ profiles, profile.Faithful)
    (distinct : ((finished ++ profiles).map fun profile => profile.scope.name).Nodup) :
    Steps (ready filename preamble finished [] []) (profiles.flatMap Profile.script)
      (ready filename preamble (finished ++ profiles.map (Profile.reread filename)) [] []) := by
  induction profiles generalizing finished with
  | nil =>
    rw [map_nil, append_nil]
    exact .nil _
  | cons profile profiles ih =>
    rw [forall_mem_cons] at faithful
    have fresh : ∀ known ∈ finished, known.scope.name ≠ profile.scope.name := by
      intro known member same
      rw [map_append, nodup_append] at distinct
      exact distinct.2.2 _ (mem_map_of_mem member) _ (mem_map_of_mem mem_cons_self) same
    have next : ((finished ++ [profile.reread filename] ++ profiles).map
        fun profile => profile.scope.name).Nodup := by
      simpa [Profile.reread, Profile.mapScopes, Scope.reread] using distinct
    have rest := ih faithful.2 next
    rw [append_assoc] at rest
    exact (steps_profile faithful.1 fresh).append rest

end Reading

/-! ## Preambles -/

/-- A later statement defines what an earlier one has made known. -/
def Rule.Clashes (earlier later : Rule) : Prop :=
  match earlier.body, later.body with
  | .assignment known, .assignment new => new.mode = .define ∧ known.name = new.name
  | .boolean known, .boolean new => known.name = new.name
  | _, _ => False

abbrev Rule.Clear (rules : List Rule) : Prop := rules.Pairwise fun earlier later => ¬earlier.Clashes later

theorem Rule.clashes_assignment_iff {earlier later : Rule} {new : Assignment}
    (body : later.body = .assignment new) :
    earlier.Clashes later ↔
      new.mode = .define ∧ ∃ known, earlier.body = .assignment known ∧ known.name = new.name := by
  unfold Clashes
  rw [body]
  cases earlier.body <;> simp

theorem Rule.clashes_boolean_iff {earlier later : Rule} {new : BooleanSetting}
    (body : later.body = .boolean new) :
    earlier.Clashes later ↔ ∃ known, earlier.body = .boolean known ∧ known.name = new.name := by
  unfold Clashes
  rw [body]
  cases earlier.body <;> simp

namespace Ruleset

theorem mem_assignments {assignment : Assignment} :
    assignment ∈ ruleset.assignments ↔ ∃ rule ∈ ruleset.rules, rule.body = .assignment assignment := by
  simp only [assignments, mem_filterMap]
  refine exists_congr fun rule => and_congr_right fun _ => ?_
  cases rule.body <;> simp

theorem mem_settings {setting : BooleanSetting} :
    setting ∈ ruleset.settings ↔ ∃ rule ∈ ruleset.rules, rule.body = .boolean setting := by
  simp only [settings, mem_filterMap]
  refine exists_congr fun rule => and_congr_right fun _ => ?_
  cases rule.body <;> simp

theorem any_assignments_iff {name : String} :
    ruleset.assignments.any (fun known => known.name == name) ↔
      ∃ rule ∈ ruleset.rules, ∃ known, rule.body = .assignment known ∧ known.name = name := by
  simp only [any_eq_true, mem_assignments, beq_iff_eq]
  grind

theorem any_settings_iff {name : String} :
    ruleset.settings.any (fun known => known.name == name) ↔
      ∃ rule ∈ ruleset.rules, ∃ known, rule.body = .boolean known ∧ known.name = name := by
  simp only [any_eq_true, mem_settings, beq_iff_eq]
  grind

theorem define_of_clash {known : Rule} (member : known ∈ ruleset.rules) (clash : known.Clashes rule) :
    ∃ error, ruleset.define rule = .error error := by
  unfold define
  split
  next new body =>
    obtain ⟨mode, assigned⟩ := (Rule.clashes_assignment_iff body).mp clash
    rw [if_pos (by simp [mode, any_assignments_iff.mpr ⟨known, member, assigned⟩])]
    exact ⟨_, rfl⟩
  next new body =>
    rw [if_pos (any_settings_iff.mpr ⟨known, member, (Rule.clashes_boolean_iff body).mp clash⟩)]
    exact ⟨_, rfl⟩
  next noAssignment noBoolean =>
    unfold Rule.Clashes at clash
    split at clash
    next _ new _ body => exact absurd body (noAssignment new)
    next _ new _ body => exact absurd body (noBoolean new)
    · exact clash.elim

theorem define_of_no_clash (clear : ∀ known ∈ ruleset.rules, ¬known.Clashes rule) :
    ruleset.define rule = .ok (ruleset.add rule) := by
  unfold define
  split
  next new body =>
    rw [if_neg]
    intro refused
    simp only [Bool.and_eq_true, decide_eq_true_eq] at refused
    obtain ⟨known, member, assigned⟩ := any_assignments_iff.mp refused.2
    exact clear known member ((Rule.clashes_assignment_iff body).mpr ⟨refused.1, assigned⟩)
  next new body =>
    rw [if_neg]
    intro refused
    obtain ⟨known, member, assigned⟩ := any_settings_iff.mp refused
    exact clear known member ((Rule.clashes_boolean_iff body).mpr assigned)
  · rfl

end Ruleset

section Reading

variable {filename : String}

open ReaderState (ready)

theorem step_preamble {known : Ruleset} (faithful : rule.Faithful)
    (kind : rule.kind ∈ Preamble.order) (start : Nat) :
    step (ready filename ⟨known⟩ [] [] []) rule.writtenLine start =
      (known.define rule).map fun ruleset => ready filename ⟨ruleset⟩ [] [] [] := by
  rw [step_statement faithful rfl]
  have added : Preamble.add ⟨known⟩ rule = (known.define rule).map Preamble.mk :=
    if_pos (contains_iff_mem.mpr kind)
  simp only [ready, ReaderState.place, added]
  cases known.define rule <;> rfl

theorem steps_preamble (known : List Rule) {rules : List Rule}
    (faithful : ∀ rule ∈ rules, rule.Faithful ∧ rule.kind ∈ Preamble.order)
    (clear : Rule.Clear (known ++ rules)) :
    Steps (ready filename ⟨⟨known⟩⟩ [] [] []) (rules.map Rule.writtenLine)
      (ready filename ⟨⟨known ++ rules⟩⟩ [] [] []) := by
  induction rules generalizing known with
  | nil =>
    rw [append_nil]
    exact .nil _
  | cons rule rules ih =>
    rw [forall_mem_cons] at faithful
    obtain ⟨⟨first, kind⟩, others⟩ := faithful
    have unknown : ∀ earlier ∈ known, ¬earlier.Clashes rule := by
      intro earlier member
      exact (pairwise_append.mp clear).2.2 earlier member rule mem_cons_self
    have placed : ∀ start,
        step (ready filename ⟨⟨known⟩⟩ [] [] []) rule.writtenLine start =
          .ok (ready filename ⟨⟨known ++ [rule]⟩⟩ [] [] []) := by
      intro start
      rw [step_preamble first kind, Ruleset.define_of_no_clash unknown]
      rfl
    have rest := ih (known ++ [rule]) others (by simpa using clear)
    rw [append_assoc] at rest
    exact .cons rfl placed rest

end Reading

/-! ## Files -/

/-- Every line of the file's listing is read as what it states. -/
structure ParsedFile.Faithful (file : ParsedFile) : Prop where
  preamble : ∀ rule ∈ file.preamble.ruleset.rules, rule.Faithful
  clear : Rule.Clear (file.preamble.ruleset.grouped Preamble.order).rules
  profiles : ∀ profile ∈ file.profiles, profile.Faithful
  names : file.profileNames = file.profiles.map fun profile => profile.scope.name
  distinct : (file.profiles.map fun profile => profile.scope.name).Nodup

theorem Profile.Faithful.scopes (faithful : profile.Faithful) : ∀ scope ∈ profile.scopes, scope.Faithful := by
  rw [scopes_eq_of_alone faithful.alone]
  refine forall_mem_cons.mpr ⟨faithful.scope, fun scope member => ?_⟩
  obtain ⟨child, among, rfl⟩ := mem_map.mp member
  exact (faithful.children child among).1

theorem ParsedFile.Faithful.listed_lines (faithful : file.Faithful) :
    listed (file.lines .asWritten) = file.script :=
  ParsedFile.listed_lines
    (Ruleset.listed_sections fun rule member => (faithful.preamble rule member).tidy)
    (fun profile member scope among => ((faithful.profiles profile member).scopes scope among).tidyLines)

theorem steps_file (faithful : file.Faithful) (filename : String) :
    Steps { filename } file.script
      (.ready filename (file.reread filename).preamble (file.reread filename).profiles [] []) := by
  have preamble : ∀ rule ∈ (file.preamble.ruleset.grouped Preamble.order).rules,
      rule.Faithful ∧ rule.kind ∈ Preamble.order := by
    intro rule member
    obtain ⟨among, kind⟩ := Ruleset.mem_grouped.mp member
    exact ⟨faithful.preamble rule among, kind⟩
  have profiles : Steps
      (.ready filename (file.reread filename).preamble [] [] []) _
      (.ready filename (file.reread filename).preamble ([] ++ file.profiles.map (Profile.reread filename))
        [] []) :=
    steps_profiles faithful.profiles faithful.distinct
  exact (steps_preamble [] preamble faithful.clear).append profiles

theorem ParsedFile.Faithful.oneLine (faithful : file.Faithful) {text : String}
    (shown : file.Shows .asWritten text) : '\n' ∉ text.toList := by
  have inScope : ∀ {scope : Scope}, scope.Faithful → scope.Shows .asWritten text → '\n' ∉ text.toList := by
    intro scope lines shown
    cases shown with
    | comment member => exact (lines.comments _ member).1.oneLine
    | header => exact lines.header.oneLine
    | rule member => exact (lines.rules _ member).1.tidy.oneLine
    | closing => decide
  cases shown with
  | statement member => exact (faithful.preamble _ member).tidy.oneLine
  | @inScope profile scope _ member among shown =>
    exact inScope ((faithful.profiles profile member).scopes scope among) shown

theorem scanText_of_listed (faithful : file.Faithful) (filename : String) {lines : List String}
    (oneLine : ∀ line ∈ lines, '\n' ∉ line.toList) (same : listed lines = file.script) :
    ∃ state, scanText filename ("\n".intercalate lines) = .ok state ∧
      state.parsed = file.reread filename := by
  have names : (file.reread filename).profileNames =
      (file.reread filename).profiles.map fun profile => profile.scope.name := by
    rw [ParsedFile.reread, map_map]
    exact faithful.names
  refine ⟨.ready filename (file.reread filename).preamble (file.reread filename).profiles [] [], ?_,
    by rw [ReaderState.parsed, ReaderState.ready, ← names]; rfl⟩
  have steps := steps_file faithful filename
  rw [← same, listed, ← content_lines_intercalate oneLine] at steps
  exact Checked.bind_eq_ok.mpr ⟨_, steps.scan_eq_ok 1, rfl⟩

end ArmorPolicy
