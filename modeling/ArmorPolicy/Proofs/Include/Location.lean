import ArmorPolicy.Proofs.Include.Memo
import ArmorPolicy.Proofs.Reader.Fault

/-!
# Where faults are found

A fault is found in the text itself or in a file that is read for it.  It carries the name under which
that text is read, and one of its lines; a file that cannot be included is a fault of the line that asks
for it.  The name of an included file is the canonical path, if its path leads somewhere as it is
written; otherwise it is only an absolute spelling of that path.
-/

namespace ArmorPolicy

def FileSystem.canonical? (files : FileSystem) (path : String) : Option String :=
  (files.resolve path).toOption.map Path.ofComponents

theorem FileSystem.includeKey_of_canonical? {files : FileSystem} {path name : String}
    (leads : files.canonical? path = some name) : files.includeKey path = name := by
  obtain ⟨place, found, rfl⟩ := Option.map_eq_some_iff.mp leads
  cases resolved : files.resolve path with
  | error fault =>
    rw [resolved] at found
    cases found
  | ok target =>
    rw [resolved] at found
    cases found
    simp only [includeKey, resolved]

theorem FileSystem.location?_readText {files : FileSystem} {path : String} {error : PolicyError}
    (failed : files.readText path = .error error) : error.location? = none := by
  unfold readText at failed
  split at failed
  · cases failed
    rfl
  · split at failed
    · split at failed
      · cases failed
      · cases failed
        rfl
    all_goals
      cases failed
      rfl

def HasLine (text : String) (line : Nat) : Prop := 1 ≤ line ∧ line ≤ (Text.lines text.toList).length

instance (text : String) (line : Nat) : Decidable (HasLine text line) :=
  inferInstanceAs (Decidable (_ ∧ _))

namespace Include

open Reader Text

variable {files : FileSystem} {config : Config} {chain : List (List String)} {depth : Nat}
  {path text filename : String} {memo : Memo}

/-! ## Files that are read -/

/-- The text of the file is read, since the file is not known and not being read. -/
structure Opens (files : FileSystem) (chain : List (List String)) (path : String) (memo : Memo)
    (text : String) : Prop where
  unknown : memo.get? (files.includeName path) = none
  outside : files.includeName path ∉ chain
  source : files.readText (files.includeKey path) = .ok text

/-- While requests are answered, the text of the file at `path` is read: the file is asked for, or a
file that is read asks for it. -/
inductive ReadFor (files : FileSystem) (config : Config) (path text : String) :
    Nat → List (List String) → List (Nat × String) → Memo → Prop
  | asked {depth line : Nat} {chain : List (List String)} {before behind : List (Nat × String)}
      {filename : String} {memo next : Memo}
      (answered : answer (load files config (depth + 1) chain) filename before memo = (.ok (), next))
      (opens : Opens files chain path next text) :
      ReadFor files config path text (depth + 1) chain (before ++ (line, path) :: behind) memo
  | inner {depth line : Nat} {chain : List (List String)} {before behind : List (Nat × String)}
      {filename outer outerText : String} {memo next : Memo}
      (answered : answer (load files config (depth + 1) chain) filename before memo = (.ok (), next))
      (opens : Opens files chain outer next outerText)
      (deeper : ReadFor files config path text depth (files.includeName outer :: chain)
        (requestsOf files config outerText) next) :
      ReadFor files config path text (depth + 1) chain (before ++ (line, outer) :: behind) memo

/-! ## Errors of included files -/

theorem load_error {error : PolicyError}
    (failed : (load files config (depth + 1) chain path memo).1 = .error error) :
    error.location? = none ∨ ∃ text, Opens files chain path memo text ∧
      ((answer (load files config depth (files.includeName path :: chain)) (files.includeKey path)
        (requestsOf files config text) memo).1 = .error error ∨
      (planText .fragment config.hatsFor (files.includeKey path) text).result = .error error) := by
  cases known : memo.get? (files.includeName path) with
  | some fragment =>
    rw [load_known known] at failed
    cases failed
  | none =>
    by_cases inside : files.includeName path ∈ chain
    · rw [load, loadOnce_cycle known inside] at failed
      cases failed
      exact .inl rfl
    · cases file : files.isFile (files.includeKey path) with
      | false =>
        rw [load, loadOnce_missing known inside file] at failed
        cases failed
        exact .inl rfl
      | true =>
        rw [load_file known inside file] at failed
        cases read : files.readText (files.includeKey path) with
        | error cause =>
          rw [read] at failed
          cases failed
          exact .inl (FileSystem.location?_readText read)
        | ok text =>
          refine .inr ⟨text, ⟨known, inside, read⟩, ?_⟩
          simp only [read, Loading.bind, Loading.ofChecked] at failed
          rcases attempt : answer (load files config depth (files.includeName path :: chain))
            (files.includeKey path) (requestsOf files config text) memo with ⟨cause | _, next⟩
          · rw [attempt] at failed
            cases failed
            exact .inl rfl
          · rw [attempt] at failed
            refine .inr ?_
            cases planned : (planText .fragment config.hatsFor (files.includeKey path) text).result with
            | error cause =>
              simp only [given, planned] at failed
              rw [Except.error.inj failed]
            | ok state =>
              simp only [given, planned] at failed
              cases failed

theorem answer_error {load : String → Loading Fragment} {requests : List (Nat × String)}
    {error : PolicyError} (failed : (answer load filename requests memo).1 = .error error) :
    ∃ before line path behind next cause, requests = before ++ (line, path) :: behind ∧
      answer load filename before memo = (.ok (), next) ∧ (load path next).1 = .error cause ∧
      error = cause.located filename line := by
  induction requests generalizing memo with
  | nil => cases failed
  | cons request rest ih =>
    obtain ⟨line, path⟩ := request
    rw [answer_cons] at failed
    rcases attempt : load path memo with ⟨cause | fragment, next⟩
    · rw [attempt] at failed
      cases failed
      exact ⟨[], line, path, rest, memo, cause, rfl, rfl, by rw [attempt], rfl⟩
    · rw [attempt] at failed
      obtain ⟨before, number, other, behind, last, cause, rfl, answered, reported, rfl⟩ := ih failed
      refine ⟨(line, path) :: before, number, other, behind, last, cause, rfl, ?_, reported, rfl⟩
      rw [answer_cons, attempt]
      exact answered

/-- The fault is in a file that is read for the requests. -/
def FoundInside (files : FileSystem) (config : Config) (depth : Nat) (chain : List (List String))
    (requests : List (Nat × String)) (memo : Memo) (place : Location) : Prop :=
  ∃ path text, ReadFor files config path text depth chain requests memo ∧
    place.file = files.includeKey path ∧ files.readText place.file = .ok text ∧ HasLine text place.line

theorem line_of_requestsOf {request : Nat × String} (among : request ∈ requestsOf files config text) :
    HasLine text request.1 := by
  obtain ⟨⟨line, inclusion⟩, asked, member⟩ := List.mem_flatMap.mp among
  obtain ⟨_, _, rfl⟩ := List.mem_map.mp member
  have bounds := line_of_asked (show (line, inclusion) ∈ (plan _ _ 1 _ _).asked from asked)
  exact ⟨bounds.1, by omega⟩

/-- A fault that is met while requests are answered is placed on the line of a request, or in a file that
is read for them. -/
theorem answer_located {requests : List (Nat × String)} {fault : PolicyFault} {location : Option Location}
    (failed : (answer (load files config depth chain) filename requests memo).1 =
      .error (.policy fault location)) :
    ∃ place, location = some place ∧
      ((place.file = filename ∧ ∃ request ∈ requests, request.1 = place.line) ∨
        FoundInside files config depth chain requests memo place) := by
  induction depth generalizing chain filename requests memo fault location with
  | zero =>
    obtain ⟨before, line, path, behind, next, cause, rfl, _, failed, located⟩ := answer_error failed
    cases failed
    cases located
    exact ⟨_, rfl, .inl ⟨rfl, (line, path), by simp, rfl⟩⟩
  | succ depth ih =>
    obtain ⟨before, line, path, behind, next, cause, rfl, answered, failed, located⟩ := answer_error failed
    have unplaced : cause.location? = none → ∃ place, location = some place ∧ place.file = filename ∧
        place.line = line := by
      intro unlocated
      cases cause with
      | policy cause place =>
        obtain rfl : place = none := unlocated
        cases located
        exact ⟨_, rfl, rfl, rfl⟩
      | misuse | clash | unreadable | badConfig => cases located
    have placed : ∀ {fault' place}, cause = .policy fault' (some place) → location = some place := by
      rintro fault' place rfl
      cases located
      rfl
    rcases load_error failed with none | ⟨text, opens, inside | planned⟩
    · obtain ⟨place, rfl, file, same⟩ := unplaced none
      exact ⟨place, rfl, .inl ⟨file, (line, path), by simp, same.symm⟩⟩
    · cases cause with
      | policy fault' place' =>
        obtain ⟨place, rfl, found⟩ := ih inside
        refine ⟨place, placed rfl, .inr ?_⟩
        rcases found with ⟨file, request, among, same⟩ | ⟨inner, innerText, read, found⟩
        · refine ⟨path, text, .asked answered opens, file, ?_, ?_⟩
          · rw [file]
            exact opens.source
          · rw [← same]
            exact line_of_requestsOf among
        · exact ⟨inner, innerText, .inner answered opens read, found⟩
      | misuse | clash | unreadable | badConfig => cases located
    · rcases planText_error planned with ⟨fault', number, rfl, first, last⟩ | ⟨_, mistake, _, _, rfl⟩
      · refine ⟨_, placed rfl, .inr ⟨path, text, .asked answered opens, rfl, opens.source, first, ?_⟩⟩
        simp only
        omega
      · cases located

end Include

/-! ## Texts -/

namespace Reading

open Include Reader

/-- While a text is read, the text of the file at `path` is read for it. -/
def ReadsFile (files : FileSystem) (session : Session) (content filename path fileText : String) : Prop :=
  ReadFor files session.config path fileText (files.size + 2) session.inProgress
    (requests (wanted files session.config)
      (planText .profiles session.config.hatsFor filename content).asked) session.memo

/-- Every fault has a place.  It is a line of the text, under the name of the text, or a line of a file
that is read for it.  The name of such a file leads to it, and is the canonical path of the include if
the include leads somewhere as it is written. -/
theorem text_fault_located {files : FileSystem} {content filename : String} {session : Session}
    {fault : PolicyFault} {location : Option Location}
    (failed : ((text files content filename).outcome session).1 = .error (.policy fault location)) :
    ∃ place, location = some place ∧
      ((place.file = filename ∧ HasLine content place.line) ∨
        ∃ path fileText, ReadsFile files session content filename path fileText ∧
          files.readText place.file = .ok fileText ∧ HasLine fileText place.line ∧
          ∀ name, files.canonical? path = some name → place.file = name) := by
  obtain ⟨warnings, outcome⟩ := follows_text files content filename session rfl rfl
  rw [outcome, loadText, perform] at failed
  simp only [Loading.bind] at failed
  rcases attempt : answer (load files session.config (files.size + 2) session.inProgress) filename
    (requests (wanted files session.config)
      (planText .profiles session.config.hatsFor filename content).asked) session.memo with ⟨cause | _, next⟩
  · rw [attempt] at failed
    obtain rfl := Except.error.inj failed
    obtain ⟨place, rfl, found⟩ := answer_located (congrArg Prod.fst attempt)
    refine ⟨place, rfl, ?_⟩
    rcases found with ⟨file, request, among, same⟩ | ⟨path, fileText, read, file, source, line⟩
    · refine .inl ⟨file, ?_⟩
      obtain ⟨⟨number, inclusion⟩, asked, member⟩ := List.mem_flatMap.mp among
      obtain ⟨_, _, rfl⟩ := List.mem_map.mp member
      have bounds := line_of_asked (show (number, inclusion) ∈ (plan _ _ 1 _ _).asked from asked)
      rw [← same]
      exact ⟨bounds.1, by simp only; omega⟩
    · refine .inr ⟨path, fileText, read, source, line, fun name leads => ?_⟩
      rw [file, FileSystem.includeKey_of_canonical? leads]
  · rw [attempt] at failed
    simp only [Loading.ofChecked] at failed
    cases planned : (planText .profiles session.config.hatsFor filename content).result with
    | ok state =>
      rw [planned] at failed
      cases failed
    | error cause =>
      rw [planned] at failed
      obtain rfl := Except.error.inj failed
      rcases planText_error planned with ⟨_, line, same, first, last⟩ | ⟨_, _, _, _, impossible⟩
      · cases same
        exact ⟨_, rfl, .inl ⟨rfl, first, by simp only; omega⟩⟩
      · cases impossible

/-- A fault on the second line of a file that an included file asks for. -/
theorem text_fault_located_chained :
    let files := FileSystem.write (FileSystem.write {} ["x"] (.file "\ninclude \"/./y\"\n".toUTF8)) ["y"]
      (.file "/a r,\nbogus,\n".toUTF8)
    let content := "\n\ninclude \"/x\"\n"
    ((text files content "f").outcome {}).1 =
        .error (.policy (.unknownLine "bogus,") (some ⟨"/y", 2⟩)) ∧
      ∃ path fileText, ReadsFile files {} content "f" path fileText ∧
        files.readText "/y" = .ok fileText ∧ HasLine fileText 2 ∧
        ∀ name, files.canonical? path = some name → "/y" = name := by
  intro files content
  have failed : ((text files content "f").outcome {}).1 =
      .error (.policy (.unknownLine "bogus,") (some ⟨"/y", 2⟩)) := by decide +kernel
  refine ⟨failed, ?_⟩
  obtain ⟨place, same, ⟨file, _⟩ | inside⟩ := text_fault_located failed
  · obtain rfl := Option.some.inj same
    exact absurd file (by decide)
  · obtain rfl := Option.some.inj same
    exact inside

/-- A path that leads nowhere as it is written, since it asks for a directory, is followed without its
last dot, and the fault is placed under that spelling.  The file has another canonical path. -/
theorem text_fault_misplaced :
    let files := FileSystem.write (FileSystem.write {} ["x"] (.file "bogus,\n".toUTF8)) ["sub"] .directory
    ((text files "include \"/sub/../x/.\"\n" "f").outcome {}).1 =
        .error (.policy (.unknownLine "bogus,") (some ⟨"/sub/../x", 1⟩)) ∧
      files.canonical? "/sub/../x" = some "/x" ∧ files.canonical? "/sub/../x/." = none := by
  decide +kernel

end Reading

end ArmorPolicy
