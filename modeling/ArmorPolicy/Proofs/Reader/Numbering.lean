import ArmorPolicy.Proofs.Include.Load
import ArmorPolicy.Proofs.Text.Lines

/-!
# Numbers of lines

The number of a line gets into errors and warnings, and into the state as the line on which a pending
statement started.  Nothing else depends on it.  So what a text asks for and gives is settled by its
lines without indentation and empty lines, up to the numbers in its errors.
-/

namespace ArmorPolicy

open Text

/-! ## Errors without lines -/

namespace PolicyError

def unlined : PolicyError → PolicyError
  | .policy fault location => .policy fault (location.map fun place => { place with line := 0 })
  | error => error

theorem unlined_located (error : PolicyError) (file : String) (first second : Nat) :
    (error.located file first).unlined = (error.located file second).unlined := by
  cases error with
  | policy fault location => cases location <;> rfl
  | _ => rfl

end PolicyError

namespace Loading

variable {α β : Type}

def unlined (loading : Loading α) : Loading α := fun memo =>
  ((loading memo).1.mapError PolicyError.unlined, (loading memo).2)

theorem unlined_bind (loading : Loading α) (next : α → Loading β) :
    (loading.bind next).unlined = loading.unlined.bind fun a => (next a).unlined := by
  funext memo
  simp only [unlined, bind]
  rcases loading memo with ⟨_ | a, after⟩ <;> rfl

theorem unlined_located (loading : Loading α) (file : String) (first second : Nat) :
    (loading.located file first).unlined = (loading.located file second).unlined := by
  funext memo
  simp only [unlined, located]
  rcases loading memo with ⟨error | a, after⟩
  · exact congrArg (fun error => (Except.error error, after))
      (PolicyError.unlined_located error file first second)
  · rfl

end Loading

namespace Reader

/-! ## States and plans without lines -/

def unnumbered (state : ReaderState) : ReaderState :=
  { state with pending := state.pending.map fun (statement, _) => (statement, 0) }

/-- What a plan asks for and gives, without numbers of lines. -/
def Plan.essence (plan : Plan) : List Inclusion × Checked ReaderState :=
  (plan.asked.map Prod.snd, (plan.result.map unnumbered).mapError PolicyError.unlined)

section Step

variable {kind : TextKind} {hatsFor : String → List String} {state other : ReaderState}

theorem clear_eq_of_unnumbered (same : unnumbered state = unnumbered other) :
    { state with pending := none } = { other with pending := none } :=
  congrArg (fun state : ReaderState => { state with pending := none }) same

theorem joined_unnumbered (state : ReaderState) (line : List Char) (first second : Nat) :
    (joined (unnumbered state) line first).1 = (joined state line second).1 := by
  unfold joined unnumbered
  cases state.pending <;> rfl

theorem map_stepAs (state : ReaderState) (line : List Char) (first second : Nat) :
    (stepAs kind hatsFor state line first).map unnumbered =
      (stepAs kind hatsFor state line second).map unnumbered := by
  unfold stepAs
  split
  · rfl
  · cases LineForm.ofLine line with
    | statement =>
      rcases Rule.parse? (String.ofList line) with _ | error | rule
      · cases LineForm.commaEnds line <;> rfl
      · rfl
      · rfl
    | _ => rfl

theorem stepAs_cases (state : ReaderState) (line : List Char) (first second : Nat) :
    (∃ error, stepAs kind hatsFor state line first = .error error ∧
        stepAs kind hatsFor state line second = .error error) ∨
      ∃ next other, stepAs kind hatsFor state line first = .ok next ∧
        stepAs kind hatsFor state line second = .ok other ∧ unnumbered next = unnumbered other := by
  have same := @map_stepAs kind hatsFor state line first second
  revert same
  rcases stepAs kind hatsFor state line first with error | next <;>
    rcases stepAs kind hatsFor state line second with otherError | other <;> intro same
  · exact .inl ⟨error, rfl, by rw [Except.error.inj same]⟩
  · cases same
  · cases same
  · exact .inr ⟨next, other, rfl, rfl, Except.ok.inj same⟩

theorem finish_unnumbered (state : ReaderState) (first second : Nat) :
    (finish (unnumbered state) first).mapError PolicyError.unlined =
      (finish state second).mapError PolicyError.unlined := by
  rcases state with ⟨name, preamble, finished, names, stack, rules, comments, pending, skipping⟩
  cases pending with
  | some statement => rfl
  | none => cases skipping <;> cases stack <;> rfl

end Step

section Plans

variable {kind : TextKind} {hatsFor : String → List String} {state other : ReaderState}

theorem essence_cons {line : List Char} (solid : ¬(trim line).isEmpty) (rest : List (List Char)) (number : Nat) :
    (plan kind hatsFor number (line :: rest) state).essence =
      match stepAs kind hatsFor { state with pending := none } (joined state (trim line) number).1
        (joined state (trim line) number).2 with
      | .error error => (asked { state with pending := none } (joined state (trim line) number).1,
          .error (error.located state.filename number).unlined)
      | .ok next => (asked { state with pending := none } (joined state (trim line) number).1 ++
            (plan kind hatsFor (number + 1) rest next).essence.1,
          (plan kind hatsFor (number + 1) rest next).essence.2) := by
  simp only [plan, if_neg solid]
  cases stepAs kind hatsFor _ _ _ with
  | error error =>
    refine Prod.ext ?_ rfl
    simp [Plan.essence, Function.comp_def]
  | ok next => simp [Plan.essence, Function.comp_def]

/-- The plan for lines is that for their content, whatever their numbers are.  Both runs are in step
after each line that is not empty. -/
theorem essence_plan_content (same : unnumbered state = unnumbered other) (lines : List (List Char))
    (first second : Nat) :
    (plan kind hatsFor first lines state).essence =
      (plan kind hatsFor second (content lines) other).essence := by
  induction lines generalizing first second state other with
  | nil => simp [plan, content, Plan.essence, Except.map, same]
  | cons line rest ih =>
    rw [content_cons]
    by_cases blank : (trim line).isEmpty
    · simp only [plan, if_pos blank]
      exact ih same (first + 1) second
    rw [if_neg blank]
    have solid : ¬(trim (trim line)).isEmpty := by rwa [trim_trim]
    have cleared := clear_eq_of_unnumbered same
    have filename : state.filename = other.filename := by
      simpa [unnumbered] using congrArg ReaderState.filename same
    have text : (joined state (trim line) first).1 = (joined other (trim (trim line)) second).1 := by
      rw [← joined_unnumbered state (trim line) 0 first, same, joined_unnumbered, trim_trim]
    rcases @stepAs_cases kind hatsFor { other with pending := none }
        (joined other (trim (trim line)) second).1 (joined state (trim line) first).2
        (joined other (trim (trim line)) second).2 with
      ⟨error, here, there⟩ | ⟨next, otherNext, here, there, alike⟩
    · rw [essence_cons blank, essence_cons solid, cleared, text, here, there]
      dsimp only
      rw [filename, PolicyError.unlined_located]
    · rw [essence_cons blank, essence_cons solid, cleared, text, here, there]
      simp only [ih alike (first + 1) (second + 1)]

theorem essence_plan (lines : List (List Char)) (first second : Nat) (state : ReaderState) :
    (plan kind hatsFor first lines state).essence = (plan kind hatsFor second lines state).essence := by
  rw [essence_plan_content rfl lines first 0, ← essence_plan_content rfl lines second 0]

theorem essence_plan_text {lines : List String} (oneLine : ∀ line ∈ lines, '\n' ∉ line.toList)
    (number : Nat) (state : ReaderState) :
    (plan kind hatsFor number (Text.lines ("\n".intercalate lines).toList) state).essence =
      (plan kind hatsFor number (lines.map String.toList) state).essence := by
  rw [essence_plan_content rfl _ number number, content_lines_intercalate oneLine,
    ← essence_plan_content rfl _ number number]

theorem bind_finish_congr {result otherResult : Checked ReaderState}
    (same : (result.map unnumbered).mapError PolicyError.unlined =
      (otherResult.map unnumbered).mapError PolicyError.unlined) (first second : Nat) :
    (result >>= fun state => finish state first).mapError PolicyError.unlined =
      (otherResult >>= fun state => finish state second).mapError PolicyError.unlined := by
  rcases result with error | state <;> rcases otherResult with otherError | other
  · exact congrArg Except.error (Except.error.inj same)
  · cases same
  · cases same
  · have alike : unnumbered state = unnumbered other := Except.ok.inj same
    have ended := finish_unnumbered state first first
    rw [alike, finish_unnumbered other first second] at ended
    exact ended.symm

end Plans

/-! ## Performing a plan -/

section Perform

variable {load : String → Loading Fragment} {paths : Inclusion → List String} {filename : String}

theorem unlined_answer (requests : List (Nat × String)) :
    (answer load filename requests).unlined =
      ((loadAll load (requests.map Prod.snd)).located filename 0).unlined := by
  induction requests with
  | nil => rfl
  | cons request rest ih =>
    obtain ⟨line, path⟩ := request
    rw [answer, Loading.unlined_bind, Loading.unlined_located _ filename line 0, ih,
      ← Loading.unlined_bind, List.map_cons, loadAll, Loading.located_bind]

theorem unlined_perform {plan other : Plan} (asked : plan.asked.map Prod.snd = other.asked.map Prod.snd)
    (result : plan.result.mapError PolicyError.unlined = other.result.mapError PolicyError.unlined) :
    (perform load paths filename plan).unlined = (perform load paths filename other).unlined := by
  have requested : ∀ plan : Plan, (requests paths plan.asked).map Prod.snd =
      (plan.asked.map Prod.snd).flatMap paths := by
    intro plan
    simp [requests, List.map_flatMap, List.flatMap_map, Function.comp_def]
  have ends : (Loading.ofChecked plan.result).unlined = (Loading.ofChecked other.result).unlined := by
    funext memo
    exact congrArg (·, memo) result
  simp only [perform, Loading.unlined_bind, unlined_answer, requested, asked, ends]

end Perform

end Reader

/-! ## Texts -/

/-- Texts whose lines have the same plan are read alike: they give the same file, or the same error up to
its line, and leave the same included files behind. -/
theorem Reading.outcome_text_congr {files : FileSystem} {filename : String} {session : Session}
    {first second : String}
    (same : (Reader.plan .profiles session.config.hatsFor 1 (lines first.toList) { filename }).essence =
      (Reader.plan .profiles session.config.hatsFor 1 (lines second.toList) { filename }).essence) :
    ((Reading.text files first filename).outcome session).1.mapError PolicyError.unlined =
        ((Reading.text files second filename).outcome session).1.mapError PolicyError.unlined ∧
      ((Reading.text files first filename).outcome session).2.memo =
        ((Reading.text files second filename).outcome session).2.memo := by
  have loads : (Include.loadText files session.config session.inProgress first filename).unlined =
      (Include.loadText files session.config session.inProgress second filename).unlined := by
    unfold Include.loadText
    obtain ⟨asked, result⟩ := Prod.mk.inj same
    rw [Loading.unlined_bind, Loading.unlined_bind]
    exact congrArg (Loading.bind · _) (Reader.unlined_perform asked (Reader.bind_finish_congr result _ _))
  have memos := congrFun loads session.memo
  obtain ⟨firstWarnings, firstOutcome⟩ := Include.follows_text files first filename session rfl rfl
  obtain ⟨secondWarnings, secondOutcome⟩ := Include.follows_text files second filename session rfl rfl
  rw [firstOutcome, secondOutcome]
  exact Prod.mk.inj memos

end ArmorPolicy
