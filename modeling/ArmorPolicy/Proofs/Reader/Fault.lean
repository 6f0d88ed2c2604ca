import ArmorPolicy.Proofs.Include.Load
import ArmorPolicy.Proofs.Rule.Fault

/-!
# How reading a text fails

A text that cannot be read is at fault on one of its lines.  Only a vacant statement is reported as a
mistake of the caller, and only once reading has come to it.
-/

namespace ArmorPolicy

open Checked Text

variable {mistake : Misuse} {number : Nat}

/-! ## Lines -/

@[simp]
theorem Preamble.onlyFaults_add (preamble : Preamble) (rule : Rule) : OnlyFaults (preamble.add rule) := by
  unfold add Ruleset.define
  split
  · split <;> simp
  · simp

@[simp]
theorem Ruleset.onlyFaults_addInside (ruleset : Ruleset) (rule : Rule) :
    OnlyFaults (ruleset.addInside rule) := by
  simp [addInside]

@[simp]
theorem Profile.onlyFaults_addInner (profile child : Profile) : OnlyFaults (profile.addInner child) := by
  simp [addInner]

namespace ReaderState

variable {kind : TextKind} {hatsFor : String → List String} {state : ReaderState}

@[simp]
theorem onlyFaults_innerScope (outer : Scope) (header : HeaderLine) :
    OnlyFaults (state.innerScope outer header) := by
  simp [innerScope]

@[simp]
theorem onlyFaults_topScope (name : String) : OnlyFaults (state.topScope name) := by
  unfold topScope
  split <;> simp

@[simp]
theorem onlyFaults_dressed (scope : Scope) (header : HeaderLine) : OnlyFaults (dressed scope header) := by
  unfold dressed
  cases header.attachment <;> simp

theorem onlyFaults_openProfile (header : HeaderLine) : OnlyFaults (state.openProfile kind header) := by
  unfold openProfile openedScope
  cases state.stack <;> simp

theorem onlyFaults_openHat (hat : HatLine) : OnlyFaults (state.openHat kind hat) := by
  unfold openHat
  split <;> simp

theorem onlyFaults_giveToParent (parent : String) (hat : Profile) (profiles : List Profile) :
    OnlyFaults (giveToParent parent hat profiles) := by
  induction profiles with
  | nil => exact onlyFaults_refuse _
  | cons profile rest ih => simp [giveToParent, ih]

theorem onlyFaults_close : OnlyFaults (state.close hatsFor) := by
  unfold close
  simp only
  split <;> simp [onlyFaults_giveToParent, finishProfile]

@[simp]
theorem onlyFaults_addToScope (scope : Scope) (rule : Rule) : OnlyFaults (addToScope scope rule) := by
  simp [addToScope, Scope.addRule]

theorem onlyFaults_place (rule : Rule) : OnlyFaults (state.place kind rule) := by
  unfold place
  split <;> simp

end ReaderState

namespace Reader

variable {kind : TextKind} {hatsFor : String → List String} {state next : ReaderState}

structure ReadsStatement (state : ReaderState) (line : List Char) : Prop where
  outsideConditional : state.skipping = 0
  form : LineForm.ofLine line = .statement

theorem onlyFaults_stepAs {line : List Char} {start : Nat}
    (filled : ReadsStatement state line → ∀ mistake, ¬Rule.Vacant line mistake) :
    OnlyFaults (stepAs kind hatsFor state line start) := by
  unfold stepAs
  refine onlyFaults_ite.mpr ⟨by simp, fun reads => ?_⟩
  cases form : LineForm.ofLine line with
  | header header => exact ReaderState.onlyFaults_openProfile header
  | hat hat => exact ReaderState.onlyFaults_openHat hat
  | closing => exact ReaderState.onlyFaults_close
  | conditional | alternative | changeHat | comment => simp
  | statement =>
    simp only
    split
    next rule read => exact ReaderState.onlyFaults_place rule
    next error read =>
      rintro _ ⟨⟩
      exact Rule.onlyFaults_of_parse? read (filled ⟨by simpa using reads, form⟩) error rfl
    · simp

theorem stepAs_of_vacant {line : List Char} {start : Nat} (reads : ReadsStatement state line)
    (vacant : Rule.Vacant line mistake) : stepAs kind hatsFor state line start = reject mistake := by
  rw [stepAs, if_neg (by simp [reads.outsideConditional]), reads.form]
  simp only [Rule.parse?_of_vacant vacant]
  rfl

/-! ## Runs -/

/-- Reading the lines from a given number on comes to a statement: a line, with what was pending before
it, outside of conditional blocks. -/
inductive ComesTo (kind : TextKind) (hatsFor : String → List String) (statement : List Char) :
    Nat → List (List Char) → ReaderState → Prop
  | blank {number : Nat} {line : List Char} {rest : List (List Char)} {state : ReaderState}
      (blank : (trim line).isEmpty = true) (later : ComesTo kind hatsFor statement (number + 1) rest state) :
      ComesTo kind hatsFor statement number (line :: rest) state
  | here {number : Nat} {line : List Char} {rest : List (List Char)} {state : ReaderState}
      (solid : (trim line).isEmpty = false) (same : (joined state (trim line) number).1 = statement)
      (reads : ReadsStatement { state with pending := none } statement) :
      ComesTo kind hatsFor statement number (line :: rest) state
  | step {number : Nat} {line : List Char} {rest : List (List Char)} {state next : ReaderState}
      (solid : (trim line).isEmpty = false)
      (stepped : stepAs kind hatsFor { state with pending := none } (joined state (trim line) number).1
        (joined state (trim line) number).2 = .ok next)
      (later : ComesTo kind hatsFor statement (number + 1) rest next) :
      ComesTo kind hatsFor statement number (line :: rest) state

def ComesToIn (kind : TextKind) (hatsFor : String → List String) (filename text : String)
    (statement : List Char) : Prop :=
  ComesTo kind hatsFor statement 1 (lines text.toList) { filename }

theorem plan_of_vacant {statement : List Char} {lines : List (List Char)}
    (comes : ComesTo kind hatsFor statement number lines state) (vacant : Rule.Vacant statement mistake) :
    (plan kind hatsFor number lines state).result = reject mistake := by
  induction comes with
  | blank blank _ ih =>
    rw [plan, if_pos blank]
    exact ih
  | here solid same reads =>
    rw [plan, if_neg (by simp [solid])]
    simp only [same, stepAs_of_vacant reads vacant]
    rfl
  | step solid stepped _ ih =>
    rw [plan, if_neg (by simp [solid])]
    simp only [stepped]
    exact ih

/-- The place of a fault on one of the lines from a given number on. -/
def FaultAt (filename : String) (number length : Nat) (error : PolicyError) : Prop :=
  ∃ fault line, error = .policy fault (some ⟨filename, line⟩) ∧ number ≤ line ∧ line < number + length

theorem plan_error {lines : List (List Char)} {error : PolicyError}
    (failed : (plan kind hatsFor number lines state).result = .error error) :
    FaultAt state.filename number lines.length error ∨
      ∃ statement mistake, ComesTo kind hatsFor statement number lines state ∧
        Rule.Vacant statement mistake ∧ error = .misuse mistake := by
  have later : ∀ {filename number length}, FaultAt filename (number + 1) length error →
      FaultAt filename number (length + 1) error := by
    rintro filename number length ⟨fault, line, rfl, first, last⟩
    exact ⟨fault, line, rfl, by omega, by omega⟩
  induction lines generalizing number state with
  | nil => cases failed
  | cons line rest ih =>
    rw [plan] at failed
    split at failed
    next blank =>
      rcases ih failed with found | ⟨statement, mistake, comes, vacant, rfl⟩
      · exact .inl (later found)
      · exact .inr ⟨statement, mistake, .blank blank comes, vacant, rfl⟩
    next solid =>
      simp only at failed
      have solid : (trim line).isEmpty = false := by simpa using solid
      split at failed
      next cause stepped =>
        cases failed
        by_cases filled : ReadsStatement { state with pending := none } (joined state (trim line) number).1 →
            ∀ mistake, ¬Rule.Vacant (joined state (trim line) number).1 mistake
        · obtain ⟨fault, rfl⟩ := onlyFaults_stepAs filled cause stepped
          refine .inl ⟨fault, number, rfl, Nat.le_refl _, ?_⟩
          rw [List.length_cons]
          omega
        · simp only [Classical.not_imp, Classical.not_forall, Classical.not_not] at filled
          obtain ⟨reads, mistake, vacant⟩ := filled
          rw [stepAs_of_vacant reads vacant] at stepped
          cases stepped
          exact .inr ⟨_, mistake, .here solid rfl reads, vacant, rfl⟩
      next next stepped =>
        have named := filename_stepAs stepped
        rcases ih failed with found | ⟨statement, mistake, comes, vacant, rfl⟩
        · rw [named] at found
          exact .inl (later found)
        · exact .inr ⟨statement, mistake, .step solid stepped comes, vacant, rfl⟩

theorem line_of_asked {lines : List (List Char)} {request : Nat × Inclusion}
    (among : request ∈ (plan kind hatsFor number lines state).asked) :
    number ≤ request.1 ∧ request.1 < number + lines.length := by
  induction lines generalizing number state with
  | nil => cases among
  | cons line rest ih =>
    have here : ∀ {line : List Char}, request ∈ (asked { state with pending := none } line).map (number, ·) →
        request.1 = number := by
      intro line member
      obtain ⟨_, _, rfl⟩ := List.mem_map.mp member
      rfl
    rw [plan] at among
    rw [List.length_cons]
    split at among
    · have bounds := ih among
      omega
    · simp only at among
      split at among
      · have same := here among
        omega
      · rcases List.mem_append.mp among with first | later
        · have same := here first
          omega
        · have bounds := ih later
          omega

/-! ## The end of a text -/

section Pending

/-- What is pending started on one of the lines before a given number. -/
def PendingBefore (number : Nat) (state : ReaderState) : Prop :=
  ∀ statement start, state.pending = some (statement, start) → 1 ≤ start ∧ start < number

theorem pendingBefore_plan {lines : List (List Char)} {final : ReaderState} (positive : 1 ≤ number)
    (before : PendingBefore number state)
    (ended : (plan kind hatsFor number lines state).result = .ok final) :
    PendingBefore (number + lines.length) final := by
  induction lines generalizing number state with
  | nil =>
    cases ended
    exact before
  | cons line rest ih =>
    rw [List.length_cons, show number + (rest.length + 1) = number + 1 + rest.length by omega]
    rcases plan_cons_eq_ok ended with ⟨_, ended⟩ | ⟨next, stepped, ended⟩
    · refine ih (by omega) (fun statement start pending => ?_) ended
      have bounds := before statement start pending
      omega
    · refine ih (by omega) (fun statement start pending => ?_) ended
      rcases place_stepAs stepped with kept | ⟨_, other, same⟩
      · rw [kept.pending] at pending
        cases pending
      · rw [same] at pending
        cases pending
        unfold joined
        split
        next statement start pending =>
          have bounds := before statement start pending
          exact ⟨bounds.1, by omega⟩
        · exact ⟨positive, Nat.lt_succ_self number⟩

theorem filename_plan {lines : List (List Char)} {final : ReaderState}
    (ended : (plan kind hatsFor number lines state).result = .ok final) :
    final.filename = state.filename := by
  induction lines generalizing number state with
  | nil => rw [← Except.ok.inj ended]
  | cons line rest ih =>
    rcases plan_cons_eq_ok ended with ⟨_, ended⟩ | ⟨next, stepped, ended⟩
    · exact ih ended
    · rw [ih ended, filename_stepAs stepped]

end Pending

theorem planText_error {filename text : String} {error : PolicyError}
    (failed : (planText kind hatsFor filename text).result = .error error) :
    FaultAt filename 1 (lines text.toList).length error ∨
      ∃ statement mistake, ComesToIn kind hatsFor filename text statement ∧
        Rule.Vacant statement mistake ∧ error = .misuse mistake := by
  simp only [planText] at failed
  cases planned : (plan kind hatsFor 1 (lines text.toList) { filename }).result with
  | error cause =>
    rw [planned] at failed
    cases failed
    exact plan_error planned
  | ok state =>
    rw [planned] at failed
    refine .inl ?_
    have named : state.filename = filename := filename_plan planned
    have before := pendingBefore_plan (Nat.le_refl 1) (by rintro _ _ ⟨⟩) planned
    have some : 1 ≤ (lines text.toList).length := by
      cases content : lines text.toList with
      | nil =>
        rw [content] at planned
        rw [← Except.ok.inj planned] at failed
        cases failed
      | cons line rest => simp
    change finish state _ = _ at failed
    unfold finish at failed
    simp only at failed
    split at failed
    next statement start pending =>
      cases failed
      have bounds := before statement start pending
      exact ⟨_, start, by rw [← named]; rfl, bounds.1, by omega⟩
    · split at failed
      · cases failed
        exact ⟨_, _, by rw [← named]; rfl, some, by omega⟩
      · split at failed
        · cases failed
          exact ⟨_, _, by rw [← named]; rfl, some, by omega⟩
        · cases failed

theorem planText_of_vacant {filename text : String} {statement : List Char}
    (comes : ComesToIn kind hatsFor filename text statement) (vacant : Rule.Vacant statement mistake) :
    (planText kind hatsFor filename text).result = reject mistake := by
  simp only [planText, plan_of_vacant comes vacant]
  rfl

end Reader

/-! ## Texts -/

namespace Reading

open Reader

/-- Where included files are not read, a text that cannot be read is at fault on one of its lines.  The
caller is blamed instead exactly when reading comes to a vacant statement: a signal rule that lists no
signals, or an alias with nothing between its quotation marks. -/
theorem text_fails_at_line {files : FileSystem} {content filename : String} {session : Session}
    (noIncludes : session.config.resolveIncludes = false) :
    (∀ error, ((text files content filename).outcome session).1 = .error error →
      (∃ fault line, error = .policy fault (some ⟨filename, line⟩) ∧ 1 ≤ line ∧
        line ≤ (lines content.toList).length) ∨ ∃ mistake, error = .misuse mistake) ∧
    ∀ mistake, ((text files content filename).outcome session).1 = reject mistake ↔
      ∃ statement, ComesToIn .profiles session.config.hatsFor filename content statement ∧
        Rule.Vacant statement mistake := by
  obtain ⟨warnings, outcome⟩ := Include.follows_text files content filename session rfl rfl
  have noFiles : ∀ asked, requests (Include.wanted files session.config) asked = [] := by
    simp [requests, Include.wanted, noIncludes]
  have planned : ((text files content filename).outcome session).1 =
      (planText .profiles session.config.hatsFor filename content).result.map ReaderState.parsed := by
    rw [outcome]
    simp only [Include.loadText, perform, noFiles]
    cases (planText .profiles session.config.hatsFor filename content).result <;> rfl
  have failing : ∀ error, ((text files content filename).outcome session).1 = .error error →
      (planText .profiles session.config.hatsFor filename content).result = .error error := by
    intro error failed
    rw [planned] at failed
    cases result : (planText .profiles session.config.hatsFor filename content).result with
    | error cause =>
      rw [result] at failed
      rw [Except.error.inj failed]
    | ok state =>
      rw [result] at failed
      cases failed
  constructor
  · intro error failed
    rcases planText_error (failing error failed) with ⟨fault, line, rfl, first, last⟩ |
      ⟨_, mistake, _, _, rfl⟩
    · exact .inl ⟨fault, line, rfl, first, by omega⟩
    · exact .inr ⟨mistake, rfl⟩
  · intro mistake
    constructor
    · intro failed
      rcases planText_error (failing _ failed) with ⟨fault, line, impossible, _⟩ |
        ⟨statement, _, comes, vacant, same⟩
      · cases impossible
      · cases same
        exact ⟨statement, comes, vacant⟩
    · rintro ⟨statement, comes, vacant⟩
      rw [planned, planText_of_vacant comes vacant]
      rfl

/-- A value that is missing, in a profile behind an alias. -/
theorem text_fails_at_line_missing :
    let session : Session := .unresolved
    let content := "alias /a -> /b,\n/c \x7b\n  signal set=(hup)\n    peer=,\n\x7d\n"
    ((text {} content "f").outcome session).1 =
        .error (.policy (.missingValue "peer") (some ⟨"f", 4⟩)) ∧
      ¬∃ statement, ComesToIn .profiles session.config.hatsFor "f" content statement ∧
        Rule.Vacant statement .noSignals := by
  intro session content
  have failed : ((text {} content "f").outcome session).1 =
      .error (.policy (.missingValue "peer") (some ⟨"f", 4⟩)) := by decide +kernel
  refine ⟨failed, fun comes => ?_⟩
  have blamed : ((text {} content "f").outcome session).1 = reject .noSignals :=
    ((text_fails_at_line rfl).2 .noSignals).mpr comes
  cases failed.symm.trans blamed

/-- An empty list of signals is reported as a mistake of the caller. -/
theorem text_blames_caller :
    ((text {} "signal set=(),\n" "f").outcome .unresolved).1 =
      reject .noSignals := by
  decide +kernel

end Reading

end ArmorPolicy
