import ArmorPolicy.Proofs.Reader.Plan

/-!
# Included files and the memo

An included file is known by the components of its path.  They lead to one place at most, so all
spellings of a name under which a file can be read have the same text; other spellings lead nowhere.
Of a session, reading an included file needs the configuration, the files that are being read and the
memo, and it changes the memo alone.
-/

namespace ArmorPolicy.FileSystem

variable {place : List String} {path text : String} {files : FileSystem}

def includeName (files : FileSystem) (path : String) : List String :=
  Path.components (files.includeKey path)

def placeOf? (files : FileSystem) (name : List String) : Option (List String) :=
  (files.follow [] name).toOption

def textIn? (files : FileSystem) (place : List String) : Option String :=
  match files.entryAt place with
  | some (.file content) => String.fromUTF8? content
  | _ => none

def textOf? (files : FileSystem) (name : List String) : Option String :=
  (files.placeOf? name).bind files.textIn?

/-- A spelling of a path that leads to no file, although its components do. -/
structure Misspelled (files : FileSystem) (key : String) : Prop where
  noFile : files.isFile key = false
  leads : (files.textOf? (Path.components key)).isSome = true

/-! ## Places -/

theorem follow_filter {target pieces : List String} (found : files.follow place pieces = .ok target) :
    files.follow place (pieces.filter fun piece => !piece.isEmpty && piece != ".") = .ok target := by
  induction pieces generalizing place with
  | nil => exact found
  | cons piece rest ih =>
    by_cases idle : piece.isEmpty ∨ piece = "."
    · have dropped : (!piece.isEmpty && piece != ".") = false := by
        rcases idle with empty | rfl
        · simp [empty]
        · decide
      rw [List.filter_cons_of_neg (by simp [dropped])]
      simp only [follow] at found
      split at found
      · cases found
      · rw [if_pos (by simpa using idle)] at found
        exact ih found
    · have named : (piece.isEmpty || piece == ".") = false := by simpa using idle
      rw [List.filter_cons_of_pos (by simpa using idle)]
      simp only [follow, named] at found ⊢
      grind

theorem isAbsolute_ofComponents (components : List String) :
    Path.isAbsolute (Path.ofComponents components) := by
  simp [Path.isAbsolute, Path.ofComponents]

theorem isAbsolute_absolute {workingDirectory : List String} (nonempty : path.isEmpty = false) :
    Path.isAbsolute (Path.absolute workingDirectory path) := by
  have plain := isAbsolute_ofComponents
  have slashed : ∀ {start behind : String}, Path.isAbsolute start → Path.isAbsolute (start ++ behind) := by
    intro start behind first
    have head : start.toList.head? = some '/' := by simpa [Path.isAbsolute] using first
    simp [Path.isAbsolute, head]
  have either : ∀ {condition : Bool} {first second : String}, Path.isAbsolute first →
      Path.isAbsolute second → Path.isAbsolute (if condition then first else second) := by
    intro condition first second left right
    cases condition <;> assumption
  have doubled : ∀ components, Path.isAbsolute ("/" ++ Path.ofComponents components) :=
    fun components => slashed (by decide)
  rw [Path.absolute, if_neg (by simp [nonempty])]
  exact either (slashed (either (doubled _) (plain _))) (either (doubled _) (plain _))

theorem isAbsolute_includeKey (nonempty : (files.includeKey path).isEmpty = false) :
    Path.isAbsolute (files.includeKey path) := by
  unfold includeKey at nonempty ⊢
  split at nonempty
  · exact isAbsolute_ofComponents _
  · refine isAbsolute_absolute ?_
    cases empty : path.isEmpty with
    | false => rfl
    | true =>
      rw [Path.absolute, if_pos empty, empty] at nonempty
      cases nonempty

theorem placeOf?_of_resolve (found : files.resolve (files.includeKey path) = .ok place) :
    files.placeOf? (files.includeName path) = some place := by
  unfold resolve at found
  split at found
  · cases found
  next nonempty =>
    split at found
    · cases found
    · split at found
      · cases found
      · rw [isAbsolute_includeKey (by simpa using nonempty)] at found
        have reached := follow_filter found
        rw [placeOf?, includeName, Path.components]
        exact congrArg Except.toOption reached

/-! ## Texts -/

theorem textOf?_of_readText (read : files.readText (files.includeKey path) = .ok text) :
    files.textOf? (files.includeName path) = some text := by
  unfold readText at read
  split at read
  · cases read
  next place found =>
    split at read
    next content entry =>
      split at read
      next other decoded =>
        rw [← Except.ok.inj read, textOf?, placeOf?_of_resolve found, Option.bind_some, textIn?, entry]
        exact decoded
      · cases read
    · cases read
    · cases read

theorem readText_of_textOf? (file : files.isFile (files.includeKey path))
    (leads : files.textOf? (files.includeName path) = some text) :
    files.readText (files.includeKey path) = .ok text := by
  unfold isFile find? at file
  split at file
  next content found =>
    split at found
    next place resolved =>
      rw [textOf?, placeOf?_of_resolve resolved, Option.bind_some, textIn?, found] at leads
      simp only [readText, resolved, found, leads]
    · cases found
  · cases file

theorem mem_keys_of_textIn? (found : files.textIn? place = some text) : place ∈ files.entries.keys := by
  unfold textIn? at found
  split at found
  next content entry =>
    unfold entryAt at entry
    split at entry
    · cases entry
    · obtain ⟨before, after, split, _⟩ := List.lookup_eq_some_iff.mp entry
      rw [SortedMap.keys, split]
      simp
  · cases found

end ArmorPolicy.FileSystem

namespace ArmorPolicy.Include

open Reading Reader

def wanted (files : FileSystem) (config : Config) (inclusion : Inclusion) : List String :=
  if config.resolveIncludes then inclusion.fullPaths files config.profileDir else []

/-- Reads an included file inside of the files of a chain.  What it asks for is read by `loadOne`,
inside of the file itself. -/
def loadOnce (files : FileSystem) (config : Config)
    (loadOne : List (List String) → String → Loading Fragment) (chain : List (List String))
    (path : String) : Loading Fragment := fun memo =>
  let key := files.includeKey path
  let name := Path.components key
  match memo.get? name with
  | some fragment => (.ok fragment, memo)
  | none =>
    if chain.contains name then (refuse (.includeCycle key), memo)
    else if files.isFile key = false then (refuse (.includeMissing key), memo)
    else
      (Loading.bind (.ofChecked (files.readText key)) fun text =>
        (perform (loadOne (name :: chain)) (wanted files config) key
          (planText .fragment config.hatsFor key text)).bind fun state memo =>
            (.ok state.fragment, memo.insert name state.fragment)) memo

/-- Reads an included file inside of the files of a chain, up to a depth of inclusion. -/
def load (files : FileSystem) (config : Config) :
    Nat → List (List String) → String → Loading Fragment
  | 0, _, path => .ofChecked (refuse (.includeCycle (files.includeKey path)))
  | depth + 1, chain, path => loadOnce files config (load files config depth) chain path

def loadText (files : FileSystem) (config : Config) (chain : List (List String))
    (content filename : String) : Loading ParsedFile :=
  (perform (load files config (files.size + 2) chain) (wanted files config) filename
    (planText .profiles config.hatsFor filename content)).bind fun state => .ofChecked (.ok state.parsed)

section Follows

variable {α : Type} {files : FileSystem} {config : Config} {chain : List (List String)}

theorem requests_unresolved (unresolved : config.resolveIncludes = false) (asked : List (Nat × Inclusion)) :
    requests (wanted files config) asked = [] := by
  simp [requests, wanted, unresolved]

theorem loadText_unresolved (unresolved : config.resolveIncludes = false) (content filename : String)
    (memo : Memo) : loadText files config chain content filename memo =
      ((planText .profiles config.hatsFor filename content).result.map ReaderState.parsed, memo) := by
  simp only [loadText, perform, requests_unresolved unresolved]
  cases (planText .profiles config.hatsFor filename content).result <;> rfl

theorem follows_during {name : List String} {reading : Reading α} {loading : Loading α}
    (inner : reading.Follows config (name :: chain) loading) :
    (during name reading).Follows config chain loading := by
  intro session configured inChain
  obtain ⟨warnings, ended⟩ := inner { session with inProgress := name :: session.inProgress }
    configured (by rw [inChain])
  refine ⟨warnings, ?_⟩
  have shape : (during name reading).outcome session =
      ((reading.outcome { session with inProgress := name :: session.inProgress }).1,
        { (reading.outcome { session with inProgress := name :: session.inProgress }).2 with
          inProgress := (reading.outcome
            { session with inProgress := name :: session.inProgress }).2.inProgress.erase name }) := rfl
  rw [shape, ended]
  simp

theorem follows_remember (name : List String) (fragment : Fragment) :
    Follows config chain
      (do
        modify fun session => { session with memo := session.memo.insert name fragment } return fragment)
      (fun memo => (.ok fragment, memo.insert name fragment)) :=
  fun session _ _ => ⟨session.warnings, rfl⟩

theorem follows_resolveWith {readOne : String → Reading Fragment} {load : String → Loading Fragment}
    (one : ∀ path, (readOne path).Follows config chain (load path)) (inclusion : Inclusion) :
    (resolveWith files readOne inclusion).Follows config chain
      (loadAll load (wanted files config inclusion)) := by
  have all : ∀ paths : List String,
      Follows config chain (paths.forM fun path => do let _ ← readOne path) (loadAll load paths) := by
    intro paths
    induction paths with
    | nil => exact follows_pure ()
    | cons path paths ih =>
      have first := (one path).bind fun _ => follows_pure ()
      have both := first.bind fun _ => ih
      rw [Loading.bind_assoc] at both
      exact both
  refine follows_get fun session configured => ?_
  rw [configured, wanted]
  split
  · exact all _
  · exact follows_pure ()

theorem follows_readOnce {readOne : String → Reading Fragment}
    {loadOne : List (List String) → String → Loading Fragment} {path : String}
    (one : ∀ asked, (readOne asked).Follows config (Path.components (files.includeKey path) :: chain)
      (loadOne (Path.components (files.includeKey path) :: chain) asked)) :
    (readOnce files readOne path).Follows config chain (loadOnce files config loadOne chain path) := by
  have resolves : ∀ inclusion,
      (resolveWith files readOne inclusion).Follows config
        (Path.components (files.includeKey path) :: chain)
        (loadAll (loadOne (Path.components (files.includeKey path) :: chain))
          (wanted files config inclusion)) :=
    follows_resolveWith one
  have read := fun key text => (follows_during (follows_read resolves .fragment key text)).bind
    fun state => follows_remember (Path.components (files.includeKey path)) state.fragment
  have opened := (follows_ofChecked (files.readText (files.includeKey path))).bind
    (read (files.includeKey path))
  rintro session configured rfl
  have got : Reading.outcome (get : Reading Session) session = (.ok session, session) := rfl
  unfold readOnce loadOnce
  simp only [outcome_bind, got]
  cases session.memo.get? (Path.components (files.includeKey path)) with
  | some fragment => exact ⟨session.warnings, rfl⟩
  | none =>
    cases session.inProgress.contains (Path.components (files.includeKey path)) with
    | true => exact ⟨session.warnings, rfl⟩
    | false =>
      cases files.isFile (files.includeKey path) with
      | false => exact ⟨session.warnings, rfl⟩
      | true => exact opened session configured rfl

theorem follows_readWithin (files : FileSystem) (depth : Nat) (path : String) :
    (readWithin files depth path).Follows config chain (load files config depth chain path) := by
  induction depth generalizing chain path with
  | zero => exact follows_throw _
  | succ depth ih => exact follows_readOnce fun asked => ih asked

theorem follows_resolve (files : FileSystem) (inclusion : Inclusion) :
    (resolve files inclusion).Follows config chain
      (loadAll (load files config (files.size + 2) chain) (wanted files config inclusion)) :=
  follows_resolveWith (fun path => follows_readWithin files (files.size + 2) path) inclusion

theorem follows_text (files : FileSystem) (content filename : String) :
    (Reading.text files content filename).Follows config chain
      (loadText files config chain content filename) :=
  (follows_read (follows_resolve files) .profiles filename content).bind fun state =>
    follows_pure state.parsed

theorem text_eq_ok {content filename : String} {session after : Session} {file : ParsedFile}
    (success : (Reading.text files content filename).outcome session = (.ok file, after)) :
    ∃ state,
      answer (load files session.config (files.size + 2) session.inProgress) filename
          (requests (wanted files session.config)
            (planText .profiles session.config.hatsFor filename content).asked) session.memo =
        (.ok (), after.memo) ∧
      (planText .profiles session.config.hatsFor filename content).result = .ok state ∧
      state.parsed = file := by
  obtain ⟨warnings, outcome⟩ := follows_text files content filename session rfl rfl
  rw [success, loadText] at outcome
  obtain ⟨result, rfl⟩ := Prod.mk.inj outcome
  rcases performed : perform (load files session.config (files.size + 2) session.inProgress)
    (wanted files session.config) filename
    (planText .profiles session.config.hatsFor filename content) session.memo with ⟨error | state, memo⟩
  · rw [Loading.bind, performed] at result
    cases result
  · obtain ⟨answered, planned⟩ := perform_eq_ok performed
    simp only [Loading.bind, performed, Loading.ofChecked] at result ⊢
    exact ⟨state, answered, planned, (Except.ok.inj result).symm⟩

end Follows

end ArmorPolicy.Include
