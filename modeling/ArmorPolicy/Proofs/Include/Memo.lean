import ArmorPolicy.Proofs.Reader.Turn

/-!
# What the memo holds

A file enters the memo when all that it asks for is there.  So the memo is closed under includes and has
no cycles: a rank of its names goes down along every include.  Reading adds to the memo, failing or not,
and never a file of the chain inside of which it goes on.

Each file of a chain has been suspended at a request for the next one.  When a file is met again under
another name, it asks for the same files again: the earlier ones are known, and the one at which it was
suspended is in progress, which is a cycle.  So every file but the innermost has a place of its own, and
the number of places that are left bounds the depth.
-/

namespace ArmorPolicy.Include

open List SortedMap Reader

variable {fragment : Fragment} {name : List String} {filename : String} {files : FileSystem}
  {config : Config} {chain : List (List String)} {depth : Nat} {path text : String}
  {memo after : Memo}

/-! ## One file -/

def requestsOf (files : FileSystem) (config : Config) (text : String) : List (Nat × String) :=
  requests (wanted files config) (planText .fragment config.hatsFor "" text).asked

/-- What an included text gives when all that it asks for has been read. -/
def given (config : Config) (key text : String) : Checked Fragment :=
  (planText .fragment config.hatsFor key text).result.map ReaderState.fragment

def remember (name : List String) (fragment : Fragment) : Loading Fragment :=
  fun memo => (.ok fragment, memo.insert name fragment)

theorem given_renamed {key other : String} (found : given config key text = .ok fragment) :
    given config other text = .ok { fragment with filename := other } := by
  obtain ⟨state, ended, rfl⟩ := Checked.map_eq_ok.mp found
  exact Checked.map_eq_ok.mpr ⟨_, result_planText ended, rfl⟩

theorem profileNames_of_given {key : String} (found : given config key text = .ok fragment) :
    fragment.profileNames = [] := by
  obtain ⟨state, ended, rfl⟩ := Checked.map_eq_ok.mp found
  exact names_planText_fragment ended

theorem filename_of_given {key : String} (found : given config key text = .ok fragment) :
    fragment.filename = key := by
  have again := found.symm.trans (given_renamed found)
  rw [Except.ok.inj again]

section Equations

variable {loadOne : List (List String) → String → Loading Fragment}

theorem loadOnce_known (known : memo.get? (files.includeName path) = some fragment) :
    loadOnce files config loadOne chain path memo = (.ok fragment, memo) := by
  rw [FileSystem.includeName] at known
  simp only [loadOnce, known]

theorem loadOnce_cycle (unknown : memo.get? (files.includeName path) = none)
    (inside : files.includeName path ∈ chain) :
    loadOnce files config loadOne chain path memo =
      (refuse (.includeCycle (files.includeKey path)), memo) := by
  rw [FileSystem.includeName] at unknown inside
  simp [loadOnce, unknown, inside]

theorem loadOnce_missing (unknown : memo.get? (files.includeName path) = none)
    (outside : files.includeName path ∉ chain) (missing : files.isFile (files.includeKey path) = false) :
    loadOnce files config loadOne chain path memo =
      (refuse (.includeMissing (files.includeKey path)), memo) := by
  rw [FileSystem.includeName] at unknown outside
  simp [loadOnce, unknown, outside, missing]

theorem loadOnce_file (unknown : memo.get? (files.includeName path) = none)
    (outside : files.includeName path ∉ chain) (file : files.isFile (files.includeKey path)) :
    loadOnce files config loadOne chain path memo =
      (Loading.bind (.ofChecked (files.readText (files.includeKey path))) fun text =>
        (answer (loadOne (files.includeName path :: chain)) (files.includeKey path)
          (requestsOf files config text)).bind fun _ =>
            Loading.bind (.ofChecked (given config (files.includeKey path) text))
              (remember (files.includeName path))) memo := by
  have absent : chain.contains (files.includeName path) = false := by simpa using outside
  rw [FileSystem.includeName] at unknown absent
  simp only [loadOnce, unknown, absent, file, FileSystem.includeName]
  rw [if_neg (by decide), if_neg (by decide)]
  refine congrArg (fun next => Loading.bind _ next memo) (funext fun text => ?_)
  rw [perform, Loading.bind_assoc, requestsOf, asked_planText "" (files.includeKey path) text]
  refine congrArg _ (funext fun _ => ?_)
  simp only [given]
  cases (planText .fragment config.hatsFor (files.includeKey path) text).result <;> rfl

theorem load_known (known : memo.get? (files.includeName path) = some fragment) :
    load files config (depth + 1) chain path memo = (.ok fragment, memo) :=
  loadOnce_known known

theorem load_file (unknown : memo.get? (files.includeName path) = none)
    (outside : files.includeName path ∉ chain) (file : files.isFile (files.includeKey path)) :
    load files config (depth + 1) chain path memo =
      (Loading.bind (.ofChecked (files.readText (files.includeKey path))) fun text =>
        (answer (load files config depth (files.includeName path :: chain)) (files.includeKey path)
          (requestsOf files config text)).bind fun _ =>
            Loading.bind (.ofChecked (given config (files.includeKey path) text))
              (remember (files.includeName path))) memo :=
  loadOnce_file unknown outside file

/-- A file whose text is read: what it asks for is read first. -/
structure Opened (files : FileSystem) (config : Config) (depth : Nat) (chain : List (List String))
    (path : String) (memo : Memo) (text : String) (asked : Checked Unit × Memo) : Prop where
  unknown : memo.get? (files.includeName path) = none
  outside : files.includeName path ∉ chain
  source : files.textOf? (files.includeName path) = some text
  answers : answer (load files config depth (files.includeName path :: chain)) (files.includeKey path)
    (requestsOf files config text) memo = asked

/-- What reading a file comes to: it fails at once, finds the file in the memo, fails while the text
is read, or remembers what the text gives. -/
theorem load_cases (files : FileSystem) (config : Config) (depth : Nat) (chain : List (List String))
    (path : String) (memo : Memo) :
    (∃ error, load files config (depth + 1) chain path memo = (.error error, memo)) ∨
      (∃ fragment, memo.get? (files.includeName path) = some fragment ∧
        load files config (depth + 1) chain path memo = (.ok fragment, memo)) ∨
      (∃ text asked error, Opened files config depth chain path memo text asked ∧
        load files config (depth + 1) chain path memo = (.error error, asked.2)) ∨
      ∃ text next fragment, Opened files config depth chain path memo text (.ok (), next) ∧
        given config (files.includeKey path) text = .ok fragment ∧
        load files config (depth + 1) chain path memo =
          (.ok fragment, next.insert (files.includeName path) fragment) := by
  cases known : memo.get? (files.includeName path) with
  | some fragment => exact .inr (.inl ⟨fragment, rfl, load_known known⟩)
  | none =>
    by_cases inside : files.includeName path ∈ chain
    · exact .inl ⟨_, loadOnce_cycle known inside⟩
    · cases file : files.isFile (files.includeKey path) with
      | false => exact .inl ⟨_, loadOnce_missing known inside file⟩
      | true =>
        rw [load_file known inside file]
        cases read : files.readText (files.includeKey path) with
        | error error => exact .inl ⟨error, rfl⟩
        | ok text =>
          have source := FileSystem.textOf?_of_readText read
          simp only [Loading.bind, Loading.ofChecked]
          rcases attempt : answer (load files config depth (files.includeName path :: chain))
            (files.includeKey path) (requestsOf files config text) memo with ⟨error | _, next⟩
          · exact .inr (.inr (.inl ⟨text, _, error, ⟨known, inside, source, attempt⟩, rfl⟩))
          · cases gives : given config (files.includeKey path) text with
            | error error =>
              exact .inr (.inr (.inl ⟨text, _, error, ⟨known, inside, source, attempt⟩, rfl⟩))
            | ok fragment =>
              exact .inr (.inr (.inr ⟨text, next, fragment, ⟨known, inside, source, attempt⟩, gives, rfl⟩))

end Equations

/-! ## Growth -/

/-- Nothing is lost, and no file of the chain is added. -/
structure Extends (chain : List (List String)) (memo after : Memo) : Prop where
  grows : ∀ name fragment, memo.get? name = some fragment → after.get? name = some fragment
  spares : ∀ name ∈ chain, memo.get? name = none → after.get? name = none

namespace Extends

theorem refl (chain : List (List String)) (memo : Memo) : Extends chain memo memo :=
  ⟨fun _ _ known => known, fun _ _ unknown => unknown⟩

theorem trans {last : Memo} (first : Extends chain memo after) (second : Extends chain after last) :
    Extends chain memo last where
  grows name fragment known := second.grows name fragment (first.grows name fragment known)
  spares name inside unknown := second.spares name inside (first.spares name inside unknown)

theorem isSome (extends' : Extends chain memo after) (known : (memo.get? name).isSome) :
    (after.get? name).isSome := by
  obtain ⟨fragment, found⟩ := Option.isSome_iff_exists.mp known
  rw [extends'.grows name fragment found]
  rfl

theorem insert (extends' : Extends (name :: chain) memo after) (outside : name ∉ chain)
    (unknown : memo.get? name = none) : Extends chain memo (after.insert name fragment) where
  grows other known found := by
    rw [get?_insert, if_neg]
    · exact extends'.grows other known found
    · intro same
      rw [eq_of_beq same, unknown] at found
      cases found
  spares other inside absent := by
    rw [get?_insert, if_neg]
    · exact extends'.spares other (List.mem_cons_of_mem _ inside) absent
    · intro same
      exact outside (eq_of_beq same ▸ inside)

end Extends

theorem answer_keeps {loadOne : String → Loading Fragment} {P : Memo → Prop}
    (one : ∀ path memo, P memo → P (loadOne path memo).2) (filename : String)
    (requests : List (Nat × String)) (kept : P memo) : P (answer loadOne filename requests memo).2 := by
  induction requests generalizing memo with
  | nil => exact kept
  | cons request rest ih =>
    have first := one request.2 memo kept
    rw [answer_cons]
    rcases attempt : loadOne request.2 memo with ⟨_ | fragment, next⟩
    · rwa [attempt] at first
    · rw [attempt] at first
      exact ih first

theorem extends_answer {loadOne : String → Loading Fragment}
    (one : ∀ path memo, Extends chain memo (loadOne path memo).2) (filename : String)
    (requests : List (Nat × String)) (memo : Memo) :
    Extends chain memo (answer loadOne filename requests memo).2 :=
  answer_keeps (fun path next known => known.trans (one path next)) filename requests (.refl chain memo)

theorem extends_load (files : FileSystem) (config : Config) (depth : Nat) (chain : List (List String))
    (path : String) (memo : Memo) : Extends chain memo (load files config depth chain path memo).2 := by
  induction depth generalizing chain path memo with
  | zero => exact .refl chain memo
  | succ depth ih =>
    have inner : ∀ {text asked}, Opened files config depth chain path memo text asked →
        Extends (files.includeName path :: chain) memo asked.2 := by
      intro text asked opened
      rw [← opened.answers]
      exact extends_answer (ih _) _ _ memo
    rcases load_cases files config depth chain path memo with ⟨error, failed⟩ | ⟨fragment, _, found⟩ |
      ⟨text, asked, error, opened, failed⟩ | ⟨text, next, fragment, opened, _, loaded⟩
    · rw [failed]
      exact .refl chain memo
    · rw [found]
      exact .refl chain memo
    · rw [failed]
      exact ⟨(inner opened).grows, fun name inside => (inner opened).spares name (.tail _ inside)⟩
    · rw [loaded]
      exact (inner opened).insert opened.outside opened.unknown

theorem Opened.extends {asked : Checked Unit × Memo}
    (opened : Opened files config depth chain path memo text asked) :
    Extends (files.includeName path :: chain) memo asked.2 := by
  rw [← opened.answers]
  exact extends_answer (extends_load files config depth _) _ _ memo

theorem known_of_load (loaded : load files config depth chain path memo = (.ok fragment, after)) :
    after.get? (files.includeName path) = some fragment := by
  cases depth with
  | zero => cases loaded
  | succ depth =>
    rcases load_cases files config depth chain path memo with ⟨error, outcome⟩ |
      ⟨known, found, outcome⟩ | ⟨text, asked, error, _, outcome⟩ | ⟨text, next, known, _, _, outcome⟩
    · cases outcome.symm.trans loaded
    · cases outcome.symm.trans loaded
      exact found
    · cases outcome.symm.trans loaded
    · cases outcome.symm.trans loaded
      rw [get?_insert, if_pos (beq_self_eq_true _)]

/-- Requests are answered in related ways if each of them is, when those before it are known.  Both
readings go on with related memos, or the first one fails. -/
theorem answer_related {loadOther : String → Loading Fragment} {related : Memo → Memo → Prop}
    {final : Checked Unit × Memo → Checked Unit × Memo → Prop} {requests : List (Nat × String)}
    {other : Memo} (done : ∀ first second, related first second → final (.ok (), first) (.ok (), second))
    (step : ∀ before line path behind, requests = before ++ (line, path) :: behind →
      ∀ first second, Extends chain memo first →
        (∀ request ∈ before, (first.get? (files.includeName request.2)).isSome) → related first second →
        (∃ fragment fragmentOther next nextOther,
          load files config depth chain path first = (.ok fragment, next) ∧
            loadOther path second = (.ok fragmentOther, nextOther) ∧ related next nextOther) ∨
        ∃ error next, load files config depth chain path first = (.error error, next) ∧
          final (.error (error.located filename line), next)
            (answer loadOther filename ((line, path) :: behind) second)) (start : related memo other) :
    final (answer (load files config depth chain) filename requests memo)
      (answer loadOther filename requests other) := by
  have rest : ∀ left before, requests = before ++ left → ∀ first second, Extends chain memo first →
      (∀ request ∈ before, (first.get? (files.includeName request.2)).isSome) →
      related first second →
      final (answer (load files config depth chain) filename left first)
        (answer loadOther filename left second) := by
    intro left
    induction left with
    | nil => exact fun _ _ first second _ _ agreed => done first second agreed
    | cons request left ih =>
      intro before split first second grown known agreed
      obtain ⟨line, path⟩ := request
      have grows := extends_load files config depth chain path first
      rcases step before line path left split first second grown known agreed with
        ⟨fragment, fragmentOther, next, nextOther, loaded, loadedOther, goesOn⟩ | ⟨error, next, failed, ends⟩
      · rw [loaded] at grows
        rw [answer_cons, answer_cons, loaded, loadedOther]
        refine ih (before ++ [(line, path)]) (by simp [split]) next nextOther (grown.trans grows) ?_ goesOn
        intro request among
        rcases List.mem_append.mp among with earlier | here
        · exact grows.isSome (known request earlier)
        · rw [List.mem_singleton.mp here, known_of_load loaded]
          rfl
      · rw [answer_cons, failed]
        exact ends
  exact rest requests [] rfl memo other (.refl chain memo) (by simp) start

theorem known_of_answer {requests : List (Nat × String)}
    (answered : answer (load files config depth chain) filename requests memo = (.ok (), after)) :
    ∀ request ∈ requests, (after.get? (files.includeName request.2)).isSome := by
  induction requests generalizing memo with
  | nil => simp
  | cons request rest ih =>
    rw [answer_cons] at answered
    rcases attempt : load files config depth chain request.2 memo with ⟨error | fragment, next⟩
    · rw [attempt] at answered
      cases answered
    · rw [attempt] at answered
      rw [List.forall_mem_cons]
      refine ⟨?_, ih answered⟩
      have later := extends_answer (extends_load files config depth chain) filename rest next
      rw [show answer _ filename rest next = _ from answered] at later
      exact later.isSome (by rw [known_of_load attempt]; rfl)

/-! ## Validity -/

/-- The entry is what its file gives, and all that the file asks for is known and of lower rank. -/
structure Settled (files : FileSystem) (config : Config) (memo : Memo) (rank : List String → Nat)
    (name : List String) (fragment : Fragment) : Prop where
  spelled : Path.components fragment.filename = name
  source : ∃ text, files.textOf? name = some text ∧ given config fragment.filename text = .ok fragment ∧
    ∀ request ∈ requestsOf files config text,
      (memo.get? (files.includeName request.2)).isSome = true ∧ rank (files.includeName request.2) < rank name

def Ranked (files : FileSystem) (config : Config) (memo : Memo) (rank : List String → Nat) : Prop :=
  ∀ name fragment, memo.get? name = some fragment → Settled files config memo rank name fragment

/-- The memo is closed under includes and has no cycles. -/
def Valid (files : FileSystem) (config : Config) (memo : Memo) : Prop :=
  ∃ rank bound, (∀ name, rank name < bound) ∧ Ranked files config memo rank

theorem Valid.profileNames (valid : Valid files config memo) (known : memo.get? name = some fragment) :
    fragment.profileNames = [] := by
  obtain ⟨_, _, _, ranked⟩ := valid
  obtain ⟨_, _, _, gives, _⟩ := ranked name fragment known
  exact profileNames_of_given gives

theorem valid_empty (files : FileSystem) (config : Config) : Valid files config .empty := by
  refine ⟨fun _ => 0, 1, fun _ => Nat.zero_lt_one, ?_⟩
  intro name fragment known
  cases known

theorem Valid.insert (valid : Valid files config memo) (unknown : memo.get? name = none)
    (spelled : Path.components fragment.filename = name) (source : files.textOf? name = some text)
    (gives : given config fragment.filename text = .ok fragment)
    (answered : ∀ request ∈ requestsOf files config text, (memo.get? (files.includeName request.2)).isSome) :
    Valid files config (memo.insert name fragment) := by
  obtain ⟨rank, bound, bounded, ranked⟩ := valid
  have other : ∀ {known : List String}, (memo.get? known).isSome → (known == name) = false := by
    intro known isKnown
    rw [beq_eq_false_iff_ne]
    rintro rfl
    rw [unknown] at isKnown
    cases isKnown
  refine ⟨fun known => if known == name then bound else rank known, bound + 1, ?_, ?_⟩
  · intro known
    have below := bounded known
    simp only
    split <;> omega
  · intro known entry found
    rw [get?_insert] at found
    split at found
    next same =>
      obtain rfl : known = name := eq_of_beq same
      obtain rfl : fragment = entry := Option.some.inj found
      refine ⟨spelled, text, source, gives, fun request asked => ?_⟩
      have before := answered request asked
      rw [get?_insert, other before, if_pos same]
      exact ⟨before, bounded _⟩
    next apart =>
      obtain ⟨spelledKnown, textKnown, sourceKnown, givesKnown, below⟩ := ranked known entry found
      refine ⟨spelledKnown, textKnown, sourceKnown, givesKnown, fun request asked => ?_⟩
      obtain ⟨before, less⟩ := below request asked
      rw [get?_insert, other before, if_neg apart]
      exact ⟨before, less⟩

theorem Valid.load (valid : Valid files config memo) (depth : Nat) (chain : List (List String))
    (path : String) : Valid files config (load files config depth chain path memo).2 := by
  induction depth generalizing chain path memo with
  | zero => exact valid
  | succ depth ih =>
    have inner : ∀ {text asked}, Opened files config depth chain path memo text asked →
        Valid files config asked.2 := by
      intro text asked opened
      rw [← opened.answers]
      exact answer_keeps (P := Valid files config) (fun path _ known => ih known _ path) _ _ valid
    rcases load_cases files config depth chain path memo with ⟨error, failed⟩ | ⟨fragment, _, found⟩ |
      ⟨text, asked, error, opened, failed⟩ | ⟨text, next, fragment, opened, gives, loaded⟩
    · rwa [failed]
    · rwa [found]
    · rw [failed]
      exact inner opened
    · rw [loaded]
      have named := filename_of_given gives
      refine (inner opened).insert (opened.extends.spares _ (.head _) opened.unknown) ?_ opened.source
        (by rwa [named]) (known_of_answer opened.answers)
      rw [named]
      rfl

/-! ## Suspended files -/

/-- The file `last` asks for the file `next`, and what it asks for before is known. -/
def Suspended (files : FileSystem) (config : Config) (memo : Memo) (last next : List String) : Prop :=
  ∃ text before line path behind, files.textOf? last = some text ∧
    requestsOf files config text = before ++ (line, path) :: behind ∧ files.includeName path = next ∧
    ∀ request ∈ before, (memo.get? (files.includeName request.2)).isSome = true

/-- Each file of the chain is suspended at the next one, the innermost at `name`. -/
def Linked (files : FileSystem) (config : Config) (memo : Memo) :
    List String → List (List String) → Prop
  | _, [] => True
  | name, last :: chain => Suspended files config memo last name ∧ Linked files config memo last chain

theorem Suspended.mono {last next : List String} (extends' : Extends chain memo after)
    (suspended : Suspended files config memo last next) : Suspended files config after last next := by
  obtain ⟨text, before, line, path, behind, source, asked, named, known⟩ := suspended
  exact ⟨text, before, line, path, behind, source, asked, named,
    fun request among => extends'.isSome (known request among)⟩

theorem Linked.mono {others : List (List String)} (extends' : Extends others memo after)
    (linked : Linked files config memo name chain) : Linked files config after name chain := by
  induction chain generalizing name with
  | nil => trivial
  | cons last chain ih => exact ⟨linked.1.mono extends', ih linked.2⟩

theorem Linked.exists_suspended {last : List String} (linked : Linked files config memo name chain)
    (inside : last ∈ chain) : ∃ next ∈ name :: chain, Suspended files config memo last next := by
  induction chain generalizing name with
  | nil => cases inside
  | cons inner chain ih =>
    rcases mem_cons.mp inside with rfl | further
    · exact ⟨name, .head _, linked.1⟩
    · obtain ⟨next, among, suspended⟩ := ih linked.2 further
      exact ⟨next, .tail _ among, suspended⟩

theorem answer_stops {loadOne : String → Loading Fragment} {line : Nat} {filename path : String}
    {before behind : List (Nat × String)} {error : PolicyError}
    (passes : ∀ request ∈ before, ∃ fragment, loadOne request.2 memo = (.ok fragment, memo))
    (fails : loadOne path memo = (.error error, memo)) :
    answer loadOne filename (before ++ (line, path) :: behind) memo =
      (.error (error.located filename line), memo) := by
  induction before with
  | nil => rw [nil_append, answer_cons, fails]
  | cons request before ih =>
    rw [forall_mem_cons] at passes
    obtain ⟨fragment, found⟩ := passes.1
    rw [cons_append, answer_cons, found]
    exact ih passes.2

theorem answer_cycle {depth line : Nat} {filename path : String} {before behind : List (Nat × String)}
    (known : ∀ request ∈ before, (memo.get? (files.includeName request.2)).isSome)
    (unknown : memo.get? (files.includeName path) = none) (inside : files.includeName path ∈ chain) :
    answer (load files config (depth + 1) chain) filename (before ++ (line, path) :: behind) memo =
      (.error ((PolicyError.fault (.includeCycle (files.includeKey path))).located filename line), memo) := by
  refine answer_stops (fun request among => ?_) (loadOnce_cycle unknown inside)
  obtain ⟨fragment, found⟩ := Option.isSome_iff_exists.mp (known request among)
  exact ⟨fragment, load_known found⟩

/-! ## Places -/

def unused (files : FileSystem) (chain : List (List String)) : List (List String) :=
  files.entries.keys.filter fun place => !chain.any fun name => files.placeOf? name == some place

theorem length_unused_nil_le (files : FileSystem) : (unused files []).length ≤ files.size := by
  have filtered := length_filter_le
    (fun place => !([] : List (List String)).any fun name => files.placeOf? name == some place)
    files.entries.keys
  rwa [SortedMap.keys, length_map] at filtered

theorem unused_cons (name : List String) (chain : List (List String)) :
    unused files (name :: chain) =
      (unused files chain).filter fun place => !(files.placeOf? name == some place) := by
  simp [unused, filter_filter]

theorem placed_or_unused_lt (chain : List (List String)) (source : files.textOf? name = some text) :
    (∃ last ∈ chain, files.textOf? last = some text) ∨
      (unused files (name :: chain)).length < (unused files chain).length := by
  obtain ⟨place, reached, found⟩ := Option.bind_eq_some_iff.mp source
  by_cases taken : ∃ last ∈ chain, files.placeOf? last = some place
  · obtain ⟨last, inside, same⟩ := taken
    exact .inl ⟨last, inside, by rw [FileSystem.textOf?, same]; exact found⟩
  · refine .inr ?_
    have left : place ∈ unused files chain := by
      refine mem_filter.mpr ⟨FileSystem.mem_keys_of_textIn? found, ?_⟩
      simpa using taken
    rw [unused_cons]
    exact length_filter_lt_length_iff_exists.mpr ⟨place, left, by simp [reached]⟩

end ArmorPolicy.Include
