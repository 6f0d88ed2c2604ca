import ArmorPolicy.Include.Session
import ArmorPolicy.Proofs.Rule.Reading

/-!
# What a text asks for and what it gives

Reading a text asks for the files that its includes name, one after the other, and goes on only when
they can be read.  What it gives then depends on the text alone.  So a text has a plan: the includes
that it states, with their lines, and the state in which the reader is left.  Reading the text is to
answer what is asked, from the memo of files that were read before or from the files, and to give
what was planned.
-/

namespace ArmorPolicy

open List Checked

variable {rest : List (List Char)} {line : List Char} {number start : Nat}
  {final state : ReaderState} {α β : Type}

/-! ## Readings and the memo -/

abbrev Memo : Type := SortedMap (List String) Fragment

/-- Something that can fail and changes nothing but the memo. -/
abbrev Loading (α : Type) : Type := Memo → Checked α × Memo

namespace Loading

def ofChecked (result : Checked α) : Loading α := fun memo => (result, memo)

def bind (loading : Loading α) (next : α → Loading β) : Loading β := fun memo =>
  match loading memo with
  | (.ok a, after) => next a after
  | (.error error, after) => (.error error, after)

def located (file : String) (line : Nat) (loading : Loading α) : Loading α := fun memo =>
  ((loading memo).1.mapError fun error => error.located file line, (loading memo).2)

theorem bind_assoc {γ : Type} (loading : Loading α) (next : α → Loading β) (last : β → Loading γ) :
    (loading.bind next).bind last = loading.bind fun a => (next a).bind last := by
  funext memo
  simp only [bind]
  rcases loading memo with ⟨_ | a, after⟩ <;> rfl

theorem located_bind (file : String) (line : Nat) (loading : Loading α) (next : α → Loading β) :
    (loading.bind next).located file line =
      (loading.located file line).bind fun a => (next a).located file line := by
  funext memo
  simp only [bind, located]
  rcases loading memo with ⟨_ | a, after⟩ <;> rfl

theorem snd_bind_ofChecked (loading : Loading α) (next : α → Checked β) (memo : Memo) :
    (loading.bind (fun a => ofChecked (next a)) memo).2 = (loading memo).2 := by
  simp only [bind]
  rcases loading memo with ⟨_ | a, after⟩ <;> rfl

end Loading

/-- Included files are not read. -/
abbrev Session.unresolved : Session := { config := { resolveIncludes := false } }

namespace Reading

/-- What a reading gives in a session, and the session after it. -/
def outcome (reading : Reading α) (session : Session) : Checked α × Session :=
  (ExceptT.run reading).run session

theorem exists_ok (outcome : Checked α × Session) (P : α → Prop) [DecidablePred P]
    (checked : (outcome.1.toOption.any fun a => decide (P a)) = true) :
    ∃ a after, outcome = (.ok a, after) ∧ P a := by
  rcases outcome with ⟨_ | a, after⟩
  · cases checked
  · exact ⟨a, after, rfl, of_decide_eq_true checked⟩

theorem outcome_bind (reading : Reading α) (next : α → Reading β) (session : Session) :
    (reading >>= next).outcome session =
      match reading.outcome session with
      | (.ok a, after) => (next a).outcome after
      | (.error error, after) => (.error error, after) := by
  unfold outcome
  rw [ExceptT.run_bind, StateT.run_bind]
  rcases (ExceptT.run reading).run session with ⟨_ | a, after⟩ <;> rfl

theorem outcome_located (reading : Reading α) (file : String) (line : Nat) (session : Session) :
    (reading.located file line).outcome session =
      ((reading.outcome session).1.mapError fun error => error.located file line,
        (reading.outcome session).2) := by
  have mapped := StateT.run_map (Except.mapError fun error => error.located file line)
    (ExceptT.run reading) session
  exact mapped

/-- Under this configuration, and while the files of the chain are being read, the reading does to
the memo what the loading does, and otherwise leaves nothing but warnings. -/
def Follows (config : Config) (chain : List (List String)) (reading : Reading α)
    (loading : Loading α) : Prop :=
  ∀ session : Session, session.config = config → session.inProgress = chain →
    ∃ warnings, reading.outcome session =
      ((loading session.memo).1, { session with memo := (loading session.memo).2, warnings })

section Follows

variable {config : Config} {chain : List (List String)} {loading : Loading α} {reading : Reading α}

theorem follows_ofChecked (result : Checked α) :
    Follows config chain (ofChecked result) (.ofChecked result) :=
  fun session _ _ => ⟨session.warnings, rfl⟩

theorem follows_pure (a : α) : Follows config chain (pure a) (.ofChecked (.ok a)) := follows_ofChecked (.ok a)

theorem follows_throw (error : PolicyError) :
    Follows config chain (throw error : Reading α) (.ofChecked (.error error)) :=
  follows_ofChecked (.error error)

theorem follows_warn (warnings : List Warning) : Follows config chain (warn warnings) (.ofChecked (.ok ())) :=
  fun session _ _ => ⟨session.warnings ++ warnings, rfl⟩

theorem Follows.bind {next : α → Reading β} {nextLoading : α → Loading β}
    (first : reading.Follows config chain loading)
    (second : ∀ a, (next a).Follows config chain (nextLoading a)) :
    (reading >>= next).Follows config chain (loading.bind nextLoading) := by
  intro session configured inChain
  obtain ⟨warnings, firstOutcome⟩ := first session configured inChain
  rw [outcome_bind, firstOutcome, Loading.bind]
  rcases loading session.memo with ⟨result, memo⟩
  cases result with
  | error error => exact ⟨warnings, rfl⟩
  | ok a => exact second a { session with memo, warnings } configured inChain

theorem Follows.before {a : α} {next : α → Reading β} {loading : Loading β}
    (first : reading.Follows config chain (.ofChecked (.ok a)))
    (second : (next a).Follows config chain loading) :
    (reading >>= next).Follows config chain loading := by
  intro session configured inChain
  obtain ⟨warnings, firstOutcome⟩ := first session configured inChain
  rw [outcome_bind, firstOutcome]
  exact second { session with warnings } configured inChain

theorem Follows.thenKeep {result : Checked α} {next : α → Reading α}
    (first : reading.Follows config chain (.ofChecked result))
    (second : ∀ a, (next a).Follows config chain (.ofChecked (.ok a))) :
    (reading >>= next).Follows config chain (.ofChecked result) := by
  have both := first.bind second
  cases result with
  | error error => exact both
  | ok a => exact both

theorem Follows.located (first : reading.Follows config chain loading) (file : String) (line : Nat) :
    (reading.located file line).Follows config chain (loading.located file line) := by
  intro session configured inChain
  obtain ⟨warnings, firstOutcome⟩ := first session configured inChain
  rw [outcome_located, firstOutcome]
  exact ⟨warnings, rfl⟩

theorem follows_get {next : Session → Reading α}
    (second : ∀ session : Session, session.config = config → (next session).Follows config chain loading) :
    (get >>= next).Follows config chain loading := by
  intro session configured inChain
  rw [outcome_bind]
  exact second session configured session configured inChain

end Follows

end Reading

/-! ## Plans -/

namespace Reader

open Text Reading

def asked (state : ReaderState) (line : List Char) : List Inclusion :=
  if state.skipping ≠ 0 then []
  else
    match LineForm.ofLine line, Rule.parse? (String.ofList line) with
    | .statement, some (.ok rule) => Ruleset.inclusions ⟨[rule]⟩
    | _, _ => []

def stepAs (kind : TextKind) (hatsFor : String → List String) (state : ReaderState)
    (line : List Char) (start : Nat) : Checked ReaderState :=
  if state.skipping ≠ 0 then .ok (state.skipLine line)
  else
    match LineForm.ofLine line with
    | .header header => state.openProfile kind header
    | .hat hat => state.openHat kind hat
    | .closing => state.close hatsFor
    | .conditional => .ok { state with skipping := 1 }
    | .alternative => refuse .strayElse
    | .changeHat _ =>
      if state.stack.isEmpty && kind = .profiles then refuse .changeHatOutside else .ok state
    | .comment => .ok (state.addComment kind line)
    | .statement =>
      match Rule.parse? (String.ofList line) with
      | some (.ok rule) => { state with comments := [] }.place kind rule
      | some (.error error) => .error error
      | none =>
        if LineForm.commaEnds line then
          refuse (.unknownLine (String.ofList (preview unknownPreview line)))
        else .ok { state with pending := some (LineForm.withoutComment line, start) }

/-- The includes that a text states, with their lines, and how reading it ends. -/
structure Plan where
  asked : List (Nat × Inclusion) := []
  result : Checked ReaderState

def plan (kind : TextKind) (hatsFor : String → List String) :
    Nat → List (List Char) → ReaderState → Plan
  | _, [], state => { result := .ok state }
  | number, line :: rest, state =>
    if (trim line).isEmpty then plan kind hatsFor (number + 1) rest state
    else
      let (line, start) := joined state (trim line) number
      let here := (asked { state with pending := none } line).map (number, ·)
      match stepAs kind hatsFor { state with pending := none } line start with
      | .error error => { asked := here, result := .error (error.located state.filename number) }
      | .ok next =>
        let later := plan kind hatsFor (number + 1) rest next
        { later with asked := here ++ later.asked }

def planText (kind : TextKind) (hatsFor : String → List String) (filename text : String) : Plan :=
  let lines := lines text.toList
  let planned := plan kind hatsFor 1 lines { filename }
  { planned with result := planned.result >>= fun state => finish state lines.length }

/-- The files to read for includes, with the lines on which they are asked for. -/
def requests (paths : Inclusion → List String) (asked : List (Nat × Inclusion)) :
    List (Nat × String) :=
  asked.flatMap fun (line, inclusion) => (paths inclusion).map (line, ·)

/-- Reads files in order, up to the first that fails. -/
def loadAll (load : String → Loading Fragment) : List String → Loading Unit
  | [] => .ofChecked (.ok ())
  | path :: rest => (load path).bind fun _ => loadAll load rest

/-- Answers requests in order, up to the first that fails. -/
def answer (load : String → Loading Fragment) (filename : String) :
    List (Nat × String) → Loading Unit
  | [] => .ofChecked (.ok ())
  | (line, path) :: rest => ((load path).located filename line).bind fun _ => answer load filename rest

def perform (load : String → Loading Fragment) (paths : Inclusion → List String) (filename : String)
    (plan : Plan) : Loading ReaderState :=
  (answer load filename (requests paths plan.asked)).bind fun _ => .ofChecked plan.result

def blocksBehind (blocks : Nat) (line : List Char) : Nat :=
  (ReaderState.skipLine { filename := "", skipping := blocks } line).skipping

theorem skipLine_eq (state : ReaderState) (line : List Char) :
    state.skipLine line = { state with skipping := blocksBehind state.skipping line } := by
  simp only [blocksBehind, ReaderState.skipLine]
  split
  · rfl
  split
  · rfl
  split <;> rfl

theorem finish_eq_ok_iff {lastLine : Nat} :
    finish state lastLine = .ok final ↔
      final = state ∧ state.pending = none ∧ state.skipping = 0 ∧ state.stack = [] := by
  rcases state with ⟨name, preamble, finished, names, stack, rules, comments, pending, skipping⟩
  cases pending with
  | some statement => simp [finish]
  | none => cases skipping <;> cases stack <;> simp [finish, eq_comm]

section Lines

variable {kind : TextKind} {hatsFor : String → List String} {next : ReaderState}

theorem plan_cons (clear : state.pending = none) (solid : (trim line).isEmpty = false)
    (silent : asked state (trim line) = [])
    (stepped : stepAs kind hatsFor state (trim line) number = .ok next) :
    plan kind hatsFor number (line :: rest) state = plan kind hatsFor (number + 1) rest next := by
  have unchanged : { state with pending := none } = state := by rw [← clear]
  simp only [plan, solid, Bool.false_eq_true, if_false, joined, clear, unchanged, silent, stepped]
  rfl

theorem plan_cons_eq_ok (ended : (plan kind hatsFor number (line :: rest) state).result = .ok final) :
    ((trim line).isEmpty ∧ (plan kind hatsFor (number + 1) rest state).result = .ok final) ∨
      ∃ next, stepAs kind hatsFor { state with pending := none } (joined state (trim line) number).1
          (joined state (trim line) number).2 = .ok next ∧
        (plan kind hatsFor (number + 1) rest next).result = .ok final := by
  simp only [plan] at ended
  split at ended
  next blank => exact .inl ⟨blank, ended⟩
  · split at ended
    · cases ended
    next next stepped => exact .inr ⟨next, stepped, ended⟩

theorem plan_append {first : List (List Char)} {middle : ReaderState}
    (reached : (plan kind hatsFor number first state).result = .ok middle) :
    plan kind hatsFor number (first ++ rest) state =
      let later := plan kind hatsFor (number + first.length) rest middle
      { later with asked := (plan kind hatsFor number first state).asked ++ later.asked } := by
  induction first generalizing number state with
  | nil =>
    cases reached
    rfl
  | cons line first ih =>
    have numbered : number + (line :: first).length = number + 1 + first.length := by
      rw [length_cons]
      omega
    rw [cons_append, numbered]
    simp only [plan] at reached ⊢
    split at reached
    next blank =>
      rw [if_pos blank, if_pos blank]
      exact ih reached
    next solid =>
      rw [if_neg solid, if_neg solid]
      split at reached
      · cases reached
      next next stepped => simp only [ih reached, append_assoc]

end Lines

section Answer

variable {load : String → Loading Fragment}

theorem answer_cons (filename : String) (line : Nat) (path : String) (rest : List (Nat × String))
    (memo : Memo) :
    answer load filename ((line, path) :: rest) memo =
      match load path memo with
      | (.ok _, after) => answer load filename rest after
      | (.error error, after) => (.error (error.located filename line), after) := by
  simp only [answer, Loading.bind, Loading.located]
  rcases load path memo with ⟨_ | _, _⟩ <;> rfl

theorem answer_append (filename : String) (first second : List (Nat × String)) :
    answer load filename (first ++ second) =
      (answer load filename first).bind fun _ => answer load filename second := by
  induction first with
  | nil => rfl
  | cons request first ih =>
    rw [cons_append, answer, answer, Loading.bind_assoc, ih]

theorem answer_line (filename : String) (line : Nat) (paths : List String) :
    answer load filename (paths.map (line, ·)) = (loadAll load paths).located filename line := by
  induction paths with
  | nil => rfl
  | cons path paths ih => rw [map_cons, answer, loadAll, Loading.located_bind, ih]

theorem perform_append (paths : Inclusion → List String) (filename : String)
    (here : List (Nat × Inclusion)) (later : Plan) :
    perform load paths filename { later with asked := here ++ later.asked } =
      (answer load filename (requests paths here)).bind fun _ => perform load paths filename later := by
  simp only [perform, requests, flatMap_append, answer_append, Loading.bind_assoc]

theorem perform_eq_ok {paths : Inclusion → List String} {filename : String} {plan : Plan}
    {memo after : Memo} (success : perform load paths filename plan memo = (.ok state, after)) :
    answer load filename (requests paths plan.asked) memo = (.ok (), after) ∧ plan.result = .ok state := by
  simp only [perform, Loading.bind] at success
  split at success
  next answered =>
    obtain ⟨planned, rfl⟩ := Prod.mk.inj success
    exact ⟨answered, planned⟩
  · cases (Prod.mk.inj success).1

end Answer

/-! ## The text and its pending statement -/

section Place

variable {kind : TextKind} {hatsFor : String → List String} {next : ReaderState}

structure KeepsPlace (state next : ReaderState) : Prop where
  filename : next.filename = state.filename
  pending : next.pending = state.pending

theorem openProfile_eq_ok {header : HeaderLine} (opened : state.openProfile kind header = .ok next) :
    kind = .profiles ∧ ∃ base scope, state.openedScope header = .ok base ∧
      ReaderState.dressed base header = .ok scope ∧
      next = { state with
        stack := { scope := { scope with
          initialComment := if state.stack.isEmpty then state.comments else [] } } :: state.stack
        comments := [] } := by
  unfold ReaderState.openProfile at opened
  cases kind with
  | fragment => cases opened
  | profiles =>
    obtain ⟨base, based, opened⟩ := bind_eq_ok.mp opened
    obtain ⟨scope, dressed, opened⟩ := bind_eq_ok.mp opened
    exact ⟨rfl, base, scope, based, dressed, (Except.ok.inj opened).symm⟩

theorem openHat_eq_ok {hat : HatLine} (opened : state.openHat kind hat = .ok next) :
    ∃ outer below, state.stack = outer :: below ∧ outer.scope.kind = .profile ∧
      next = { state with stack := { scope :=
          { name := hat.name, kind := .hat, filename := state.filename
            flags := (hat.flags.map Flags.ofText).getD .empty, headerComment := hat.comment } } :: outer :: below } := by
  unfold ReaderState.openHat at opened
  split at opened
  · cases opened
  · cases opened
  next _ outer below here =>
    split at opened
    · cases opened
    next holder =>
      split at opened
      · cases opened
      · cases opened
        exact ⟨outer, below, here, by simpa using holder, by rw [here]⟩

theorem keepsPlace_close (closed : state.close hatsFor = .ok next) : KeepsPlace state next := by
  simp only [ReaderState.close] at closed
  split at closed
  · cases closed
  · obtain ⟨profile, _, rfl⟩ := map_eq_ok.mp closed
    exact ⟨rfl, rfl⟩
  · split at closed
    · obtain ⟨finished, _, rfl⟩ := map_eq_ok.mp closed
      exact ⟨rfl, rfl⟩
    · simp only [ReaderState.finishProfile] at closed
      split at closed
      · cases closed
      · cases closed
        exact ⟨rfl, rfl⟩

theorem keepsPlace_place {rule : Rule} (placed : state.place kind rule = .ok next) :
    KeepsPlace state next := by
  unfold ReaderState.place at placed
  split at placed
  · split at placed
    all_goals
      obtain ⟨_, _, rfl⟩ := map_eq_ok.mp placed
      exact ⟨rfl, rfl⟩
  all_goals
    obtain ⟨_, _, rfl⟩ := map_eq_ok.mp placed
    exact ⟨rfl, rfl⟩

inductive Stepped (kind : TextKind) (hatsFor : String → List String) (state : ReaderState)
    (line : List Char) (start : Nat) : ReaderState → Prop
  | skip (skips : state.skipping ≠ 0) : Stepped kind hatsFor state line start (state.skipLine line)
  | header {header : HeaderLine} {next : ReaderState} (reads : ¬state.skipping ≠ 0)
      (form : LineForm.ofLine line = .header header) (opened : state.openProfile kind header = .ok next) :
      Stepped kind hatsFor state line start next
  | hat {hat : HatLine} {next : ReaderState} (reads : ¬state.skipping ≠ 0)
      (form : LineForm.ofLine line = .hat hat) (opened : state.openHat kind hat = .ok next) :
      Stepped kind hatsFor state line start next
  | closing {next : ReaderState} (reads : ¬state.skipping ≠ 0) (form : LineForm.ofLine line = .closing)
      (closed : state.close hatsFor = .ok next) : Stepped kind hatsFor state line start next
  | conditional (reads : ¬state.skipping ≠ 0) (form : LineForm.ofLine line = .conditional) :
      Stepped kind hatsFor state line start { state with skipping := 1 }
  | changeHat {hat : String} (reads : ¬state.skipping ≠ 0) (form : LineForm.ofLine line = .changeHat hat)
      (inside : ¬(state.stack.isEmpty && kind = .profiles) = true) :
      Stepped kind hatsFor state line start state
  | comment (reads : ¬state.skipping ≠ 0) (form : LineForm.ofLine line = .comment) :
      Stepped kind hatsFor state line start (state.addComment kind line)
  | statement {rule : Rule} {next : ReaderState} (reads : ¬state.skipping ≠ 0)
      (form : LineForm.ofLine line = .statement) (read : Rule.parse? (String.ofList line) = some (.ok rule))
      (placed : { state with comments := [] }.place kind rule = .ok next) :
      Stepped kind hatsFor state line start next
  | unfinished (reads : ¬state.skipping ≠ 0) (form : LineForm.ofLine line = .statement)
      (unread : Rule.parse? (String.ofList line) = none) :
      Stepped kind hatsFor state line start
        { state with pending := some (LineForm.withoutComment line, start) }

theorem stepAs_eq_ok (stepped : stepAs kind hatsFor state line start = .ok next) :
    Stepped kind hatsFor state line start next := by
  unfold stepAs at stepped
  split at stepped
  next skips =>
    cases stepped
    exact .skip skips
  next reads =>
    cases form : LineForm.ofLine line <;> rw [form] at stepped
    case header => exact .header reads form stepped
    case hat => exact .hat reads form stepped
    case closing => exact .closing reads form stepped
    case conditional =>
      cases stepped
      exact .conditional reads form
    case alternative => cases stepped
    case changeHat =>
      simp only at stepped
      split at stepped
      · cases stepped
      next inside =>
        cases stepped
        exact .changeHat reads form inside
    case comment =>
      cases stepped
      exact .comment reads form
    case statement =>
      simp only at stepped
      split at stepped
      next read => exact .statement reads form read stepped
      · cases stepped
      next unread =>
        split at stepped
        · cases stepped
        · cases stepped
          exact .unfinished reads form unread

theorem place_stepAs (stepped : stepAs kind hatsFor state line start = .ok next) :
    KeepsPlace state next ∨
      next.filename = state.filename ∧ ∃ statement, next.pending = some (statement, start) := by
  cases stepAs_eq_ok stepped with
  | skip =>
    rw [skipLine_eq]
    exact .inl ⟨rfl, rfl⟩
  | header _ _ opened =>
    obtain ⟨_, _, _, _, _, rfl⟩ := openProfile_eq_ok opened
    exact .inl ⟨rfl, rfl⟩
  | hat _ _ opened =>
    obtain ⟨_, _, _, _, rfl⟩ := openHat_eq_ok opened
    exact .inl ⟨rfl, rfl⟩
  | closing _ _ closed => exact .inl (keepsPlace_close closed)
  | conditional | changeHat => exact .inl ⟨rfl, rfl⟩
  | comment =>
    unfold ReaderState.addComment
    split <;> exact .inl ⟨rfl, rfl⟩
  | statement _ _ _ placed =>
    obtain ⟨filename, pending⟩ := keepsPlace_place placed
    exact .inl ⟨filename, pending⟩
  | unfinished => exact .inr ⟨rfl, _, rfl⟩

theorem filename_stepAs (stepped : stepAs kind hatsFor state line start = .ok next) :
    next.filename = state.filename := by
  rcases place_stepAs stepped with kept | ⟨filename, _⟩
  · exact kept.filename
  · exact filename

theorem outside_of_stepAs (outside : state.stack = [])
    (noHeader : kind = .fragment ∨ ∀ header, LineForm.ofLine line ≠ .header header)
    (stepped : stepAs kind hatsFor state line start = .ok next) : next.stack = [] := by
  cases stepAs_eq_ok stepped with
  | skip =>
    rw [skipLine_eq]
    exact outside
  | header _ form opened =>
    rcases noHeader with rfl | noHeader
    · cases opened
    · exact absurd form (noHeader _)
  | hat _ _ opened =>
    obtain ⟨_, _, inside, _⟩ := openHat_eq_ok opened
    cases outside.symm.trans inside
  | closing _ _ closed =>
    simp only [ReaderState.close, outside] at closed
    cases closed
  | conditional | changeHat | unfinished => exact outside
  | comment =>
    rw [ReaderState.addComment]
    split <;> exact outside
  | statement _ _ _ placed =>
    cases kind <;> simp only [ReaderState.place, outside] at placed
    · obtain ⟨_, _, rfl⟩ := map_eq_ok.mp placed
      rfl
    · split at placed <;> obtain ⟨_, _, rfl⟩ := map_eq_ok.mp placed <;> rfl

end Place

/-! ## Included texts under several names -/

section Renamed

variable {hatsFor : String → List String}

def renamed (filename : String) (state : ReaderState) : ReaderState := { state with filename }

theorem place_renamed (filename : String) (state : ReaderState) (rule : Rule) :
    (renamed filename state).place .fragment rule = (state.place .fragment rule).map (renamed filename) := by
  rcases state with ⟨name, preamble, finished, names, stack, rules, comments, pending, skipping⟩
  simp only [ReaderState.place, renamed]
  split
  · cases preamble.add rule <;> rfl
  · cases rules.addInside rule <;> rfl

theorem stepAs_renamed (filename : String) (outside : state.stack = []) (line : List Char) (start : Nat) :
    stepAs .fragment hatsFor (renamed filename state) line start =
      (stepAs .fragment hatsFor state line start).map (renamed filename) := by
  have unchanged : (renamed filename state).skipping = state.skipping := rfl
  have stillOutside : (renamed filename state).stack = [] := outside
  unfold stepAs
  rw [unchanged]
  split
  · rw [skipLine_eq, skipLine_eq]
    rfl
  · cases LineForm.ofLine line with
    | closing =>
      simp only [ReaderState.close, outside, stillOutside]
      rfl
    | changeHat hat => simp [Except.map]
    | statement =>
      rcases Rule.parse? (String.ofList line) with _ | error | rule
      · cases LineForm.commaEnds line <;> rfl
      · rfl
      · exact place_renamed filename { state with comments := [] } rule
    | _ => rfl

theorem plan_renamed (filename : String) (number : Nat) (lines : List (List Char)) {state : ReaderState}
    (outside : state.stack = []) :
    (plan .fragment hatsFor number lines (renamed filename state)).asked =
        (plan .fragment hatsFor number lines state).asked ∧
      ∀ final, (plan .fragment hatsFor number lines state).result = .ok final →
        (plan .fragment hatsFor number lines (renamed filename state)).result =
          .ok (renamed filename final) := by
  induction lines generalizing number state with
  | nil =>
    refine ⟨rfl, fun final ended => ?_⟩
    rw [← Except.ok.inj ended]
    rfl
  | cons line rest ih =>
    have cleared : ({ state with pending := none } : ReaderState).stack = [] := outside
    have stepped : stepAs .fragment hatsFor { renamed filename state with pending := none }
        (joined state (trim line) number).1 (joined state (trim line) number).2 = _ :=
      stepAs_renamed filename cleared _ _
    have unchanged : joined (renamed filename state) (trim line) number =
      joined state (trim line) number := rfl
    simp only [plan, unchanged]
    split
    · exact ih (number + 1) outside
    · rw [stepped]
      cases taken : stepAs .fragment hatsFor { state with pending := none }
          (joined state (trim line) number).1 (joined state (trim line) number).2 with
      | error error =>
        refine ⟨rfl, fun final ended => ?_⟩
        cases ended
      | ok next =>
        obtain ⟨same, ends⟩ := ih (number + 1) (outside_of_stepAs cleared (.inl rfl) taken)
        exact ⟨congrArg (_ ++ ·) same, ends⟩

theorem finish_renamed {filename : String} {lastLine : Nat} (ended : finish state lastLine = .ok final) :
    finish (renamed filename state) lastLine = .ok (renamed filename final) := by
  obtain ⟨rfl, clear, reads, outside⟩ := finish_eq_ok_iff.mp ended
  exact finish_eq_ok_iff.mpr ⟨rfl, clear, reads, outside⟩

theorem asked_planText (first second text : String) :
    (planText .fragment hatsFor first text).asked = (planText .fragment hatsFor second text).asked :=
  (@plan_renamed hatsFor first 1 (lines text.toList) { filename := second } rfl).1

theorem result_planText {first second text : String}
    (ended : (planText .fragment hatsFor second text).result = .ok state) :
    (planText .fragment hatsFor first text).result = .ok (renamed first state) := by
  obtain ⟨last, reached, finished⟩ := bind_eq_ok.mp ended
  have again := (@plan_renamed hatsFor first 1 (lines text.toList) { filename := second } rfl).2 last reached
  exact bind_eq_ok.mpr ⟨_, again, finish_renamed finished⟩

end Renamed

/-! ## Reading by plan -/

section Follows

variable {config : Config} {chain : List (List String)} {resolve : Inclusion → Reading Unit}
  {load : String → Loading Fragment} {paths : Inclusion → List String}

theorem follows_warnFlags (flags : Option String) :
    (warnFlags flags).Follows config chain (.ofChecked (.ok ())) := by
  cases flags with
  | none => exact follows_pure ()
  | some text => exact follows_warn _

theorem follows_readRule
    (resolves : ∀ inclusion, (resolve inclusion).Follows config chain (loadAll load (paths inclusion)))
    (kind : TextKind) (state : ReaderState) (rule : Rule) :
    (readRule kind resolve state rule).Follows config chain
      ((loadAll load ((Ruleset.inclusions ⟨[rule]⟩).flatMap paths)).bind fun _ =>
        .ofChecked ({ state with comments := [] }.place kind rule)) := by
  have placed : Follows config chain (ofChecked ({ state with comments := [] }.place kind rule))
      (.ofChecked ({ state with comments := [] }.place kind rule)) := follows_ofChecked _
  unfold readRule
  refine (follows_warn rule.warnings).before ?_
  split
  next inclusion body =>
    have one : (Ruleset.inclusions ⟨[rule]⟩).flatMap paths = paths inclusion := by
      simp [Ruleset.inclusions, body]
    rw [one]
    exact (resolves inclusion).bind fun _ => placed
  next other =>
    have none : (Ruleset.inclusions ⟨[rule]⟩).flatMap paths = [] := by
      simp only [Ruleset.inclusions, filterMap_cons, filterMap_nil, flatMap_nil]
    rw [none]
    exact placed

theorem follows_readLine
    (resolves : ∀ inclusion, (resolve inclusion).Follows config chain (loadAll load (paths inclusion)))
    (kind : TextKind) (state : ReaderState) (line : List Char) (start : Nat) :
    (readLine kind resolve state line start).Follows config chain
      ((loadAll load ((asked state line).flatMap paths)).bind fun _ =>
        .ofChecked (stepAs kind config.hatsFor state line start)) := by
  unfold readLine asked stepAs
  by_cases skips : state.skipping ≠ 0
  · rw [if_pos skips, if_pos skips, if_pos skips]
    exact follows_pure _
  · rw [if_neg skips, if_neg skips, if_neg skips]
    cases LineForm.ofLine line with
    | header header =>
      refine (follows_ofChecked (state.openProfile kind header)).thenKeep fun next => ?_
      exact (follows_warnFlags header.flags).before (follows_pure next)
    | hat hat =>
      refine (follows_ofChecked (state.openHat kind hat)).thenKeep fun next => ?_
      exact (follows_warnFlags hat.flags).before (follows_pure next)
    | closing =>
      refine follows_get fun session configured => ?_
      rw [configured]
      exact follows_ofChecked _
    | conditional => exact follows_pure _
    | alternative => exact follows_throw _
    | changeHat hat =>
      cases state.stack.isEmpty && decide (kind = .profiles) with
      | true => exact follows_throw _
      | false => exact (follows_warn _).before (follows_pure state)
    | comment => exact follows_pure _
    | statement =>
      simp only [readStatement]
      rcases Rule.parse? (String.ofList line) with _ | error | rule
      · by_cases complete : LineForm.commaEnds line
        · simp only [complete]
          exact follows_throw _
        · simp only [complete]
          exact follows_pure _
      · exact follows_throw error
      · exact follows_readRule resolves kind state rule

theorem requests_line (number : Nat) (asked : List Inclusion) :
    requests paths (asked.map (number, ·)) = (asked.flatMap paths).map (number, ·) := by
  simp [requests, flatMap_map, map_flatMap]

theorem follows_readLines
    (resolves : ∀ inclusion, (resolve inclusion).Follows config chain (loadAll load (paths inclusion)))
    (kind : TextKind) (number : Nat) (lines : List (List Char)) (state : ReaderState) :
    (readLines kind resolve number lines state).Follows config chain
      (perform load paths state.filename (plan kind config.hatsFor number lines state)) := by
  induction lines generalizing number state with
  | nil => exact follows_pure state
  | cons line rest ih =>
    simp only [readLines, plan]
    split
    · exact ih (number + 1) state
    · have one := (follows_readLine resolves kind { state with pending := none }
        (joined state (trim line) number).1 (joined state (trim line) number).2).located state.filename number
      rw [Loading.located_bind, ← answer_line, ← requests_line] at one
      have both := one.bind fun next => ih (number + 1) next
      rw [Loading.bind_assoc] at both
      cases stepped : stepAs kind config.hatsFor { state with pending := none }
          (joined state (trim line) number).1 (joined state (trim line) number).2 with
      | error error =>
        rw [stepped] at both
        exact both
      | ok next =>
        have named := filename_stepAs stepped
        have same : perform load paths next.filename (plan kind config.hatsFor (number + 1) rest next) =
            perform load paths state.filename (plan kind config.hatsFor (number + 1) rest next) := by
          rw [named]
        rw [stepped] at both
        rw [perform_append, ← same]
        exact both

theorem follows_read
    (resolves : ∀ inclusion, (resolve inclusion).Follows config chain (loadAll load (paths inclusion)))
    (kind : TextKind) (filename text : String) :
    (read kind resolve filename text).Follows config chain
      (perform load paths filename (planText kind config.hatsFor filename text)) := by
  have lined := follows_readLines resolves kind 1 (lines text.toList) { filename }
  have ended := lined.bind fun state => follows_ofChecked (finish state (lines text.toList).length)
  rw [perform, Loading.bind_assoc] at ended
  simp only [perform, planText]
  cases planned : (plan kind config.hatsFor 1 (lines text.toList) { filename }).result with
  | error error =>
    rw [planned] at ended
    exact ended
  | ok state =>
    rw [planned] at ended
    exact ended

end Follows

end Reader

end ArmorPolicy
