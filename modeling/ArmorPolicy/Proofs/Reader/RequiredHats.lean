import ArmorPolicy.Proofs.Reader.Structure
import Mathlib.Data.List.Forall2

/-!
# Hats that profiles must have

A profile gets the hats that it must have at its closing brace.  A hat of the same name that stands
behind the profile comes too late: it is refused as a second definition.  Apart from this, requiring
hats adds empty hats to the profiles of a text and changes nothing else.
-/

namespace ArmorPolicy

open SortedMap Checked List Text

/-! ## Missing hats -/

/-- The hat that a profile gets when it misses one. -/
def Scope.emptyHat (scope : Scope) (name : String) : Scope :=
  { name, kind := .hat, filename := scope.filename, parent := some scope.name }

namespace Profile

def withHats (names : List String) (profile : Profile) : Profile :=
  names.foldl Profile.ensureHat profile

variable {profile filled : Profile} {names : List String}

theorem scope_ensureHat (name : String) : (profile.ensureHat name).scope = profile.scope := by
  unfold Profile.ensureHat
  split <;> rfl

@[simp]
theorem scope_withHats : (profile.withHats names).scope = profile.scope := by
  unfold withHats
  induction names generalizing profile with
  | nil => rfl
  | cons name names ih => exact (ih).trans (scope_ensureHat name)

theorem get?_ensureHat (name other : String) :
    (profile.ensureHat name).inner.get? other =
      (profile.inner.get? other).or
        (if other = name then some { scope := profile.scope.emptyHat name } else none) := by
  unfold Profile.ensureHat
  split
  next known =>
    cases found : profile.inner.get? other with
    | some child => rfl
    | none =>
      rw [if_neg]
      · rfl
      · rintro rfl
        rw [SortedMap.contains, found] at known
        cases known
  next unknown =>
    simp only [inner_withInner, get?_insert, beq_iff_eq]
    split
    next same =>
      subst same
      have absent : profile.inner.get? other = none := by simpa [SortedMap.contains] using unknown
      rw [absent]
      rfl
    · rw [Option.or_none]

theorem get?_withHats (other : String) :
    (profile.withHats names).inner.get? other =
      (profile.inner.get? other).or
        (if other ∈ names then some { scope := profile.scope.emptyHat other } else none) := by
  unfold withHats
  induction names generalizing profile with
  | nil => simp
  | cons name names ih =>
    rw [foldl_cons, ih, get?_ensureHat, scope_ensureHat, Option.or_assoc]
    by_cases here : other = name
    · subst here
      simp
    · simp [here]

theorem addInner_withHats {child : Profile} (free : child.scope.name ∉ names)
    (added : profile.addInner child = .ok filled) :
    (profile.withHats names).addInner child = .ok (filled.withHats names) := by
  have absent : (profile.withHats names).inner.contains child.scope.name =
      profile.inner.contains child.scope.name := by
    rw [SortedMap.contains, SortedMap.contains, get?_withHats, if_neg free, Option.or_none]
  obtain ⟨holder, unknown, rfl⟩ := addInner_eq_ok_iff.mp added
  refine addInner_eq_ok_iff.mpr ⟨by rwa [scope_withHats], by rwa [absent], ext_inner ?_ ?_⟩
  · simp
  · refine ext_get? fun name => ?_
    simp only [inner_withInner, get?_insert, get?_withHats, beq_iff_eq, scope_withHats, scope_withInner]
    by_cases here : name = child.scope.name
    · simp [here, free]
    · simp [here]

theorem addInner_withHats_of_mem {child : Profile} (required : child.scope.name ∈ names)
    (added : profile.addInner child = .ok filled) :
    ∃ error, (profile.withHats names).addInner child = .error error := by
  have present : (profile.withHats names).inner.contains child.scope.name := by
    rw [SortedMap.contains, get?_withHats, if_pos required]
    cases profile.inner.get? child.scope.name <;> rfl
  obtain ⟨holder, _⟩ := addInner_eq_ok_iff.mp added
  rw [Profile.addInner, scope_withHats, if_neg (not_not_intro holder), if_pos present]
  exact ⟨_, rfl⟩

end Profile

/-! ## Lines that close nothing -/

namespace Reader

section Open

variable {kind : TextKind} {hatsFor others : String → List String} {state next : ReaderState}
  {line : List Char}

def behind (finished : List Profile) (state : ReaderState) : ReaderState := { state with finished }

theorem openProfile_behind {finished : List Profile} (header : HeaderLine)
    (names : (finished.map fun profile => profile.scope.name) =
      state.finished.map fun profile => profile.scope.name) :
    (behind finished state).openProfile kind header =
      (state.openProfile kind header).map (behind finished) := by
  have top : ∀ name, (behind finished state).topScope name = state.topScope name := by
    intro name
    have known : ∀ parent : String,
        (finished.any fun profile => profile.scope.name == parent) =
          state.finished.any fun profile => profile.scope.name == parent := by
      intro parent
      have mapped := congrArg (fun all => all.any (· == parent)) names
      simpa [any_map, Function.comp_def] using mapped
    unfold ReaderState.topScope
    simp only [behind, known]
  have base : (behind finished state).openedScope header = state.openedScope header := by
    have same : (behind finished state).stack = state.stack := rfl
    simp only [ReaderState.openedScope, same, top]
    rfl
  unfold ReaderState.openProfile
  rw [base]
  split
  · rfl
  · cases state.openedScope header with
    | error error => rfl
    | ok base =>
      simp only [bind, Except.bind]
      cases ReaderState.dressed base header <;> rfl

theorem openHat_behind (finished : List Profile) (hat : HatLine) :
    (behind finished state).openHat kind hat = (state.openHat kind hat).map (behind finished) := by
  rcases state with ⟨name, preamble, known, names, stack, rules, comments, pending, skipping⟩
  cases kind with
  | fragment => rfl
  | profiles =>
    cases stack with
    | nil => rfl
    | cons outer below =>
      simp only [ReaderState.openHat, behind]
      split
      · rfl
      · split <;> rfl

theorem place_behind (finished : List Profile) (state : ReaderState) (rule : Rule) :
    (behind finished state).place kind rule = (state.place kind rule).map (behind finished) := by
  rcases state with ⟨name, preamble, known, names, stack, rules, comments, pending, skipping⟩
  cases kind with
  | fragment =>
    simp only [ReaderState.place, behind]
    split
    · cases preamble.add rule <;> rfl
    · cases rules.addInside rule <;> rfl
  | profiles =>
    cases stack with
    | nil =>
      simp only [ReaderState.place, behind]
      cases preamble.add rule <;> rfl
    | cons inner below =>
      simp only [ReaderState.place, behind]
      cases ReaderState.addToScope inner.scope rule <;> rfl

theorem addComment_behind (finished : List Profile) (line : List Char) :
    (behind finished state).addComment kind line = behind finished (state.addComment kind line) := by
  have same : (behind finished state).stack = state.stack := rfl
  unfold ReaderState.addComment
  rw [same]
  cases decide (kind = .fragment) || !state.stack.isEmpty ||
    ReaderState.lastModified.isPrefixOf line <;> rfl

/-- A line that closes nothing looks at the names of the finished profiles only, and leaves these
profiles as they are. -/
theorem stepAs_behind {finished : List Profile} {start : Nat}
    (names : (finished.map fun profile => profile.scope.name) =
      state.finished.map fun profile => profile.scope.name)
    (noEnd : state.skipping ≠ 0 ∨ LineForm.ofLine line ≠ .closing) :
    stepAs kind hatsFor (behind finished state) line start =
      (stepAs kind others state line start).map (behind finished) := by
  have unchanged : (behind finished state).skipping = state.skipping := rfl
  unfold stepAs
  rw [unchanged]
  split
  · rw [skipLine_eq, skipLine_eq]
    rfl
  next reads =>
    cases form : LineForm.ofLine line with
    | header header => exact openProfile_behind header names
    | hat hat => exact openHat_behind finished hat
    | closing => exact absurd form (noEnd.resolve_left reads)
    | conditional => rfl
    | alternative => rfl
    | changeHat hat =>
      have same : (behind finished state).stack = state.stack := rfl
      simp only [same]
      split <;> rfl
    | comment => exact congrArg Except.ok (addComment_behind finished line)
    | statement =>
      rcases Rule.parse? (String.ofList line) with _ | error | rule
      · cases LineForm.commaEnds line <;> rfl
      · rfl
      · exact place_behind finished { state with comments := [] } rule

theorem finished_stepAs {start : Nat} (noEnd : state.skipping ≠ 0 ∨ LineForm.ofLine line ≠ .closing)
    (stepped : stepAs kind hatsFor state line start = .ok next) : next.finished = state.finished := by
  have same : stepAs kind hatsFor state line start =
      (stepAs kind hatsFor state line start).map (behind state.finished) := stepAs_behind rfl noEnd
  rw [stepped] at same
  have kept : next = behind state.finished next := Except.ok.inj same
  rw [kept]
  rfl

end Open

/-! ## Closing lines -/

def allWithHats (hatsFor : String → List String) (profiles : List Profile) : List Profile :=
  profiles.map fun profile => profile.withHats (hatsFor profile.scope.name)

def withHats (hatsFor : String → List String) (state : ReaderState) : ReaderState :=
  behind (allWithHats hatsFor state.finished) state

/-- No hat that stands behind its profile is one that the profile must have. -/
def Clear (hatsFor : String → List String) (profiles : List Profile) : Prop :=
  ∀ profile ∈ profiles, ∀ child ∈ profile.inner.values, child.scope.external = true →
    child.scope.name ∉ hatsFor profile.scope.name

/-- With required hats things go as expected, or they fail because a hat came too late. -/
def Agrees {α : Type} (hatsFor : String → List String) (finished : List Profile) (expected : α)
    (result : Checked α) : Prop :=
  Clear hatsFor finished ∧ result = .ok expected ∨ ¬Clear hatsFor finished ∧ ∃ error, result = .error error

section Close

variable {hatsFor others : String → List String} {state next final : ReaderState} {line : List Char}
  {profiles : List Profile}

theorem names_allWithHats :
    ((allWithHats hatsFor profiles).map fun profile => profile.scope.name) =
      profiles.map fun profile => profile.scope.name := by
  simp [allWithHats, Function.comp_def]

theorem clear_cons {profile : Profile} :
    Clear hatsFor (profile :: profiles) ↔ Clear hatsFor [profile] ∧ Clear hatsFor profiles := by
  simp [Clear]

theorem clear_append {more : List Profile} :
    Clear hatsFor (profiles ++ more) ↔ Clear hatsFor profiles ∧ Clear hatsFor more := by
  simp only [Clear, forall_mem_append]

theorem clear_addInner {profile filled hat : Profile} (external : hat.scope.external)
    (added : profile.addInner hat = .ok filled) :
    Clear hatsFor [filled] ↔ Clear hatsFor [profile] ∧ hat.scope.name ∉ hatsFor profile.scope.name := by
  obtain ⟨_, fresh, rfl⟩ := Profile.addInner_eq_ok_iff.mp added
  simp only [Clear, forall_mem_singleton, forall_eq_or_imp, Profile.inner_withInner, Profile.scope_withInner,
    mem_values_insert (contains_eq_false_iff.mp fresh)]
  constructor
  · rintro ⟨here, earlier⟩
    exact ⟨earlier, here external⟩
  · rintro ⟨earlier, here⟩
    exact ⟨fun _ => here, earlier⟩

theorem giveToParent_allWithHats {parent : String} {hat : Profile} {result : List Profile}
    (external : hat.scope.external) (clear : Clear hatsFor profiles)
    (given : ReaderState.giveToParent parent hat profiles = .ok result) :
    Agrees hatsFor result (allWithHats hatsFor result)
      (ReaderState.giveToParent parent hat (allWithHats hatsFor profiles)) := by
  induction profiles generalizing result with
  | nil => cases given
  | cons profile rest ih =>
    rw [clear_cons] at clear
    simp only [ReaderState.giveToParent, allWithHats, map_cons, Profile.scope_withHats] at given ⊢
    split at given
    next named =>
      obtain ⟨filled, added, rfl⟩ := map_eq_ok.mp given
      have kept : filled.scope = profile.scope := by
        obtain ⟨_, _, rfl⟩ := Profile.addInner_eq_ok_iff.mp added
        rfl
      rw [if_pos named, Agrees, clear_cons, clear_addInner external added]
      by_cases required : hat.scope.name ∈ hatsFor profile.scope.name
      · obtain ⟨error, refused⟩ := Profile.addInner_withHats_of_mem required added
        rw [refused]
        exact .inr ⟨fun both => both.1.2 required, error, rfl⟩
      · rw [Profile.addInner_withHats required added]
        refine .inl ⟨⟨⟨clear.1, required⟩, clear.2⟩, ?_⟩
        rw [map_cons, kept]
        rfl
    next apart =>
      obtain ⟨filled, further, rfl⟩ := map_eq_ok.mp given
      rw [if_neg apart, Agrees, clear_cons]
      rcases ih clear.2 further with ⟨stillClear, accepted⟩ | ⟨late, error, refused⟩
      · rw [allWithHats] at accepted
        rw [accepted]
        exact .inl ⟨⟨clear.1, stillClear⟩, rfl⟩
      · rw [allWithHats] at refused
        rw [refused]
        exact .inr ⟨fun both => late both.2, error, rfl⟩

theorem not_clear_turn (late : ¬Clear hatsFor state.finished) (turn : Turn others line state next) :
    ¬Clear hatsFor next.finished := by
  cases turn with
  | closeHat inside external given =>
    refine fun clear => late ?_
    obtain ⟨before, profile, filled, behind, known, _, added, rfl⟩ := giveToParent_eq_ok given
    rw [known]
    rw [clear_append, clear_cons] at clear ⊢
    exact ⟨clear.1, ((clear_addInner external added).mp clear.2.1).1, clear.2.2⟩
  | closeRoot inside inFile unknown => exact fun clear => late (clear_append.mp clear).1
  | _ => exact late

theorem close_withHats (structured : state.Structured) (clear : Clear hatsFor state.finished)
    (closed : state.close (fun _ => []) = .ok next) :
    Agrees hatsFor next.finished (withHats hatsFor next) ((withHats hatsFor state).close hatsFor) := by
  have stacked := structured.stack
  rcases state with ⟨name, preamble, finished, names, stack, rules, comments, pending, skipping⟩
  rcases stack with _ | ⟨profile, _ | ⟨outer, below⟩⟩
  · cases closed
  · simp only [ReaderState.close] at closed
    split at closed
    next external =>
      obtain ⟨given, taken, rfl⟩ := map_eq_ok.mp closed
      simp only [withHats, behind, ReaderState.close, if_pos external]
      rcases giveToParent_allWithHats external clear taken with
        ⟨stillClear, accepted⟩ | ⟨late, error, refused⟩
      · rw [accepted]
        exact .inl ⟨stillClear, rfl⟩
      · rw [refused]
        exact .inr ⟨late, error, rfl⟩
    next inFile =>
      obtain ⟨unknown, rfl⟩ := finishProfile_eq_ok closed
      have alone : Clear hatsFor [profile] := by
        rw [Clear, forall_mem_singleton]
        intro child member external
        cases stacked with
        | root whole => cases (whole.inside child member).symm.trans external
        | hat => cases member
      have stillUnknown : ((allWithHats hatsFor finished).any fun known =>
          known.scope.name == profile.scope.name) = false := by
        rw [any_eq_false]
        intro known member
        obtain ⟨plain, earlier, rfl⟩ := mem_map.mp member
        simpa using unknown plain earlier
      refine .inl ⟨clear_append.mpr ⟨clear, alone⟩, ?_⟩
      simp only [withHats, behind, ReaderState.close, if_neg inFile, ReaderState.finishProfile,
        stillUnknown, foldl_nil]
      simp only [allWithHats, map_append, map_singleton]
      rfl
  · obtain ⟨filled, added, rfl⟩ := map_eq_ok.mp closed
    refine .inl ⟨clear, ?_⟩
    simp only [withHats, behind, ReaderState.close, added]
    rfl

theorem stepAs_withHats {start : Nat} (structured : state.Structured)
    (clear : Clear hatsFor state.finished)
    (stepped : stepAs .profiles (fun _ => []) state line start = .ok next) :
    Agrees hatsFor next.finished (withHats hatsFor next)
      (stepAs .profiles hatsFor (withHats hatsFor state) line start) := by
  by_cases closes : state.skipping = 0 ∧ LineForm.ofLine line = .closing
  · have reads : ¬state.skipping ≠ 0 := fun skips => skips closes.1
    have stillReads : ¬(withHats hatsFor state).skipping ≠ 0 := reads
    rw [stepAs, if_neg reads, closes.2] at stepped
    rw [stepAs, if_neg stillReads, closes.2]
    exact close_withHats structured clear stepped
  · have noEnd : state.skipping ≠ 0 ∨ LineForm.ofLine line ≠ .closing :=
      Classical.not_and_iff_not_or_not.mp closes
    have kept := finished_stepAs noEnd stepped
    have same : stepAs .profiles hatsFor (withHats hatsFor state) line start =
        (stepAs .profiles (fun _ => []) state line start).map (behind (allWithHats hatsFor state.finished)) :=
      stepAs_behind names_allWithHats noEnd
    rw [same, stepped, withHats, kept]
    exact .inl ⟨clear, rfl⟩

theorem plan_withHats {number : Nat} {lines : List (List Char)} (structured : state.Structured)
    (clear : Clear hatsFor state.finished)
    (ended : (plan .profiles (fun _ => []) number lines state).result = .ok final) :
    Agrees hatsFor final.finished (withHats hatsFor final)
        (plan .profiles hatsFor number lines (withHats hatsFor state)).result ∧
      (Clear hatsFor final.finished →
        (plan .profiles hatsFor number lines (withHats hatsFor state)).asked =
          (plan .profiles (fun _ => []) number lines state).asked) := by
  induction lines generalizing number state with
  | nil =>
    cases ended
    exact ⟨.inl ⟨clear, rfl⟩, fun _ => rfl⟩
  | cons line rest ih =>
    have unchanged : joined (withHats hatsFor state) (trim line) number =
      joined state (trim line) number := rfl
    simp only [plan, unchanged] at ended ⊢
    split at ended
    next blank =>
      rw [if_pos blank, if_pos blank]
      exact ih structured clear ended
    next solid =>
      rw [if_neg solid, if_neg solid]
      split at ended
      · cases ended
      next next stepped =>
        have cleared : ReaderState.Structured { state with pending := none } := { structured with }
        have clearHere : Clear hatsFor { state with pending := none }.finished := clear
        have turn := turn_of_stepAs stepped
        have here : Agrees hatsFor next.finished (withHats hatsFor next)
            (stepAs .profiles hatsFor { withHats hatsFor state with pending := none }
              (joined state (trim line) number).1 (joined state (trim line) number).2) :=
          stepAs_withHats cleared clearHere stepped
        rcases here with ⟨stillClear, accepted⟩ | ⟨late, error, refused⟩
        · rw [accepted]
          obtain ⟨later, same⟩ := ih (structured_turn cleared turn) stillClear ended
          refine ⟨later, fun all => ?_⟩
          exact congrArg (_ ++ ·) (same all)
        · have stillLate : ¬Clear hatsFor final.finished :=
            plan_preserves (P := fun _ state => ¬Clear hatsFor state.finished) (fun _ _ known => known)
              (fun _ _ _ _ _ known turn => not_clear_turn known turn) [] late ended
          rw [refused]
          exact ⟨.inr ⟨stillLate, _, rfl⟩, fun all => absurd all stillLate⟩

theorem finish_withHats {lastLine : Nat} (ended : finish state lastLine = .ok final) :
    finish (withHats hatsFor state) lastLine = .ok (withHats hatsFor final) := by
  obtain ⟨rfl, clear, reads, outside⟩ := finish_eq_ok_iff.mp ended
  exact finish_eq_ok_iff.mpr ⟨rfl, clear, reads, outside⟩

theorem planText_withHats (hatsFor : String → List String) {filename text : String}
    (ended : (planText .profiles (fun _ => []) filename text).result = .ok final) :
    Agrees hatsFor final.finished (withHats hatsFor final) (planText .profiles hatsFor filename text).result ∧
      (Clear hatsFor final.finished →
        (planText .profiles hatsFor filename text).asked =
          (planText .profiles (fun _ => []) filename text).asked) := by
  obtain ⟨last, reached, finished⟩ := bind_eq_ok.mp ended
  have clear : Clear hatsFor (ReaderState.finished { filename }) := forall_mem_nil _
  obtain ⟨agrees, asked⟩ := plan_withHats (.initial filename) clear reached
  have same : last.finished = final.finished := by rw [(finish_eq_ok finished).1]
  rw [same] at agrees asked
  refine ⟨?_, asked⟩
  rcases agrees with ⟨clear, accepted⟩ | ⟨late, error, refused⟩
  · exact .inl ⟨clear, bind_eq_ok.mpr ⟨_, accepted, finish_withHats finished⟩⟩
  · refine .inr ⟨late, error, ?_⟩
    have planned : (planText .profiles hatsFor filename text).result =
      (plan .profiles hatsFor 1 (lines text.toList) { filename }).result >>= fun state =>
        finish state (lines text.toList).length := rfl
    rw [planned]
    exact congrArg (· >>= fun state => finish state (lines text.toList).length) refused

end Close

/-! ## Included texts -/

section Fragment

variable {hatsFor others : String → List String} {state next : ReaderState} {line : List Char}
  {start : Nat}

theorem stepAs_fragment (outside : state.stack = []) :
    stepAs .fragment hatsFor state line start = stepAs .fragment others state line start := by
  unfold stepAs
  split
  · rfl
  · cases LineForm.ofLine line with
    | closing => simp only [ReaderState.close, outside]
    | _ => rfl

theorem plan_fragment {number : Nat} {lines : List (List Char)} (outside : state.stack = []) :
    plan .fragment hatsFor number lines state = plan .fragment others number lines state := by
  induction lines generalizing number state with
  | nil => rfl
  | cons line rest ih =>
    simp only [plan]
    split
    · exact ih outside
    · have outside' : ({ state with pending := none } : ReaderState).stack = [] := outside
      rw [stepAs_fragment outside']
      cases stepped : stepAs .fragment others { state with pending := none }
          (joined state (trim line) number).1 (joined state (trim line) number).2 with
      | error error => rfl
      | ok next => simp only [ih (outside_of_stepAs outside' (.inl rfl) stepped)]

theorem planText_fragment (filename text : String) :
    planText .fragment hatsFor filename text = planText .fragment others filename text := by
  have outside : ReaderState.stack { filename } = [] := rfl
  have same : plan .fragment hatsFor 1 (lines text.toList) { filename } =
    plan .fragment others 1 (lines text.toList) { filename } := plan_fragment outside
  simp only [planText, same]

end Fragment

end Reader

namespace Include

open Reader

variable {files : FileSystem} {config : Config}

theorem load_requiredHats (required : List RequiredHats) (depth : Nat) (chain : List (List String))
    (path : String) :
    load files { config with requiredHats := required } depth chain path =
      load files config depth chain path := by
  induction depth generalizing chain path with
  | zero => rfl
  | succ depth ih =>
    have loads : load files { config with requiredHats := required } depth = load files config depth := by
      funext chain path
      exact ih chain path
    have plans : ∀ key text,
        planText .fragment (Config.hatsFor { config with requiredHats := required }) key text =
          planText .fragment config.hatsFor key text := planText_fragment
    have wants : wanted files { config with requiredHats := required } = wanted files config := rfl
    rw [load, load, loads]
    funext memo
    simp only [loadOnce, plans, wants]

theorem text_of_answer {content filename : String} {session : Session} {state : ReaderState} {memo : Memo}
    (answered : answer (load files session.config (files.size + 2) session.inProgress) filename
        (requests (wanted files session.config)
          (planText .profiles session.config.hatsFor filename content).asked) session.memo =
      (.ok (), memo))
    (planned : (planText .profiles session.config.hatsFor filename content).result = .ok state) :
    ∃ after, (Reading.text files content filename).outcome session = (.ok state.parsed, after) := by
  obtain ⟨warnings, outcome⟩ := follows_text files content filename session rfl rfl
  rw [outcome]
  simp only [loadText, perform, Loading.bind, answered, planned, Loading.ofChecked]
  exact ⟨_, rfl⟩

end Include

/-! ## Texts -/

/-- The configuration asks for a hat of this name in profiles of that name. -/
def RequiresHat (required : List RequiredHats) (profile hat : String) : Prop :=
  ∃ entry ∈ required, entry.appliesTo profile = true ∧ hat ∈ entry.hats

theorem mem_hatsFor {config : Config} {profile hat : String} :
    hat ∈ config.hatsFor profile ↔ RequiresHat config.requiredHats profile hat := by
  simp only [Config.hatsFor, RequiresHat, mem_flatMap, mem_filter, and_assoc]

/-- The profile has its children, and an empty hat for each required hat that it misses. -/
structure Profile.GainsHats (required : List RequiredHats) (before after : Profile) : Prop where
  scope : after.scope = before.scope
  kept : ∀ name child, before.inner.get? name = some child → after.inner.get? name = some child
  gained : ∀ name, before.inner.get? name = none → RequiresHat required before.scope.name name →
    after.inner.get? name = some { scope := before.scope.emptyHat name }
  others : ∀ name, before.inner.get? name = none →
    ¬RequiresHat required before.scope.name name → after.inner.get? name = none

theorem Profile.gainsHats_withHats (config : Config) (profile : Profile) :
    profile.GainsHats config.requiredHats (profile.withHats (config.hatsFor profile.scope.name)) where
  scope := scope_withHats
  kept name child found := by
    rw [get?_withHats, found]
    rfl
  gained name missing required := by
    rw [get?_withHats, missing, if_pos (mem_hatsFor.mpr required)]
    rfl
  others name missing free := by
    rw [get?_withHats, missing, if_neg fun member => free (mem_hatsFor.mp member)]
    rfl

def Session.requiring (session : Session) (required : List RequiredHats) : Session :=
  { session with config := { session.config with requiredHats := required } }

theorem Include.text_requiring {files : FileSystem} {content filename : String}
    {session after : Session} {file : ParsedFile} (required : List RequiredHats)
    (success : (Reading.text files content filename).outcome (session.requiring []) = (.ok file, after)) :
    let hatsFor := (session.requiring required).config.hatsFor
    (Reader.Clear hatsFor file.profiles →
      ∃ later, (Reading.text files content filename).outcome (session.requiring required) =
        (.ok { file with profiles := Reader.allWithHats hatsFor file.profiles }, later)) ∧
    ∀ given later, (Reading.text files content filename).outcome (session.requiring required) =
        (.ok given, later) →
      Reader.Clear hatsFor file.profiles ∧
        given = { file with profiles := Reader.allWithHats hatsFor file.profiles } := by
  intro hatsFor
  obtain ⟨state, answered, planned, rfl⟩ := text_eq_ok success
  obtain ⟨agrees, asked⟩ := Reader.planText_withHats hatsFor planned
  constructor
  · intro clear
    rcases agrees with ⟨_, accepted⟩ | ⟨late, _⟩
    · have loads : load files (session.requiring required).config (files.size + 2) session.inProgress =
          load files (session.requiring []).config (files.size + 2) session.inProgress := by
        funext path
        exact (load_requiredHats required _ _ path).trans (load_requiredHats [] _ _ path).symm
      have again : Reader.answer
          (load files (session.requiring required).config (files.size + 2) session.inProgress) filename
          (Reader.requests (wanted files (session.requiring required).config)
            (Reader.planText .profiles hatsFor filename content).asked) session.memo =
          (.ok (), after.memo) := by
        rw [loads, asked clear]
        exact answered
      exact text_of_answer again accepted
    · exact absurd clear late
  · intro given later outcome
    obtain ⟨strict, _, result, rfl⟩ := text_eq_ok outcome
    rcases agrees with ⟨clear, accepted⟩ | ⟨_, error, refused⟩
    · rw [accepted] at result
      cases result
      exact ⟨clear, rfl⟩
    · rw [refused] at result
      cases result

/-- A text that is read without required hats is read with them exactly when no hat behind its
profile is among them.  Then required hats only add empty hats. -/
theorem Reading.text_requiring_iff {files : FileSystem} {content filename : String}
    {session after : Session} {file : ParsedFile} (required : List RequiredHats)
    (success : (Reading.text files content filename).outcome (session.requiring []) =
      (.ok file, after)) :
    ((∃ given later, (Reading.text files content filename).outcome (session.requiring required) =
        (.ok given, later)) ↔
      ∀ profile ∈ file.profiles, ∀ child ∈ profile.children.values, child.external = true →
        ¬RequiresHat required profile.scope.name child.name) ∧
    ∀ given later, (Reading.text files content filename).outcome (session.requiring required) =
        (.ok given, later) → given.filename = file.filename ∧ given.preamble = file.preamble ∧
        List.Forall₂ (Profile.GainsHats required) file.profiles given.profiles := by
  have clears : Reader.Clear (session.requiring required).config.hatsFor file.profiles ↔
      ∀ profile ∈ file.profiles, ∀ child ∈ profile.children.values, child.external = true →
        ¬RequiresHat required profile.scope.name child.name := by
    simp only [Reader.Clear, mem_hatsFor, Profile.values_children, List.forall_mem_map]
    rfl
  obtain ⟨accepted, only⟩ := Include.text_requiring required success
  refine ⟨⟨?_, ?_⟩, fun given later outcome => ?_⟩
  · rintro ⟨given, later, outcome⟩
    exact clears.mp (only given later outcome).1
  · intro free
    obtain ⟨later, outcome⟩ := accepted (clears.mpr free)
    exact ⟨_, later, outcome⟩
  · obtain ⟨_, rfl⟩ := only given later outcome
    refine ⟨rfl, rfl, ?_⟩
    rw [Reader.allWithHats, List.forall₂_map_right_iff]
    exact List.forall₂_same.mpr fun profile _ =>
      Profile.gainsHats_withHats (session.requiring required).config profile

/-- A profile with one required hat inside and one missing, a hat behind it, and a profile that need
not have any. -/
theorem Reading.text_requiring_iff_missing :
    let required : List RequiredHats := [{ profileGlob := "/a", hats := ["h", "r"] }]
    let content := "/a \x7b\n ^h \x7b\n \x7d\n\x7d\n/a//e \x7b\n\x7d\n/b \x7b\n\x7d\n"
    ∃ file after given later,
      (Reading.text {} content "f").outcome (Session.requiring {} []) = (.ok file, after) ∧
      (Reading.text {} content "f").outcome (Session.requiring {} required) = (.ok given, later) ∧
      (file.profiles.map fun profile => profile.children.keys) = [["e", "h"], []] ∧
      (given.profiles.map fun profile => profile.children.keys) = [["e", "h", "r"], []] ∧
      List.Forall₂ (Profile.GainsHats required) file.profiles given.profiles := by
  intro required content
  obtain ⟨file, after, plain, keys⟩ := Reading.exists_ok
    ((Reading.text {} content "f").outcome (Session.requiring {} []))
    (fun file => (file.profiles.map fun profile => profile.children.keys) = [["e", "h"], []])
    (by decide +kernel)
  obtain ⟨given, later, strict, more⟩ := Reading.exists_ok
    ((Reading.text {} content "f").outcome (Session.requiring {} required))
    (fun file => (file.profiles.map fun profile => profile.children.keys) = [["e", "h", "r"], []])
    (by decide +kernel)
  exact ⟨file, after, given, later, plain, strict, keys, more,
    ((Reading.text_requiring_iff required plain).2 given later strict).2.2⟩

/-- A required hat behind its profile: the text is read without the requirement, not with it. -/
theorem Reading.text_requiring_late_hat :
    let content := "/a \x7b\n\x7d\nprofile /a//h \x7b\n\x7d\n"
    ((Reading.text {} content "f").outcome (Session.requiring {} [])).1.isOk = true ∧
      ((Reading.text {} content "f").outcome
          (Session.requiring {} [{ profileGlob := "/a", hats := ["h"] }])).1 =
        .error ((PolicyError.fault (.duplicateHat "h" "/a")).located "f" 4) := by
  decide +kernel

end ArmorPolicy
