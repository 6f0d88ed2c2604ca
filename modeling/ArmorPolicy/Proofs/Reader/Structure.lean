import ArmorPolicy.Proofs.Reader.Turn

/-!
# How scopes are nested and named

Profiles stand on their own, under distinct names without a double slash.  Each holds its children
under their names, and each child names the profile that holds it.  Children come in four ways: as a
profile or a hat inside, as a hat behind the profile, and as a hat that the configuration asks for.
-/

namespace ArmorPolicy

/-! ## Names -/

theorem splitDoubleSlash?_eq_none_iff {s : List Char} :
    ReaderState.splitDoubleSlash? s = none ↔ ¬['/', '/'] <:+: s := by
  fun_induction ReaderState.splitDoubleSlash? s with
  | case1 => simp
  | case2 rest =>
    have here : ['/', '/'] <:+: '/' :: '/' :: rest := ⟨[], rest, rfl⟩
    simp [here]
  | case3 c rest other ih =>
    have notHere : ¬['/', '/'] <+: c :: rest := by
      rintro ⟨behind, same⟩
      obtain ⟨rfl, rfl⟩ := List.cons.inj same
      exact other behind rfl rfl
    rw [Option.map_eq_none_iff, ih, List.infix_cons_iff]
    simp [notHere]

/-! ## Scopes and profiles -/

structure Scope.BelongsTo (child : Scope) (root : String) : Prop where
  kind : child.kind = .child ∨ child.kind = .hat
  parent : child.parent = some root
  external : child.external = true → child.kind = .hat

/-- A profile that stands on its own.  It keeps its children under their names, and they have none
themselves. -/
structure Profile.Structured (profile : Profile) : Prop where
  root : profile.scope.Root
  children : ∀ entry ∈ profile.inner.entries, entry.2.scope.name = entry.1 ∧ entry.2.inner = .empty ∧
    entry.2.scope.BelongsTo profile.scope.name

/-- As long as a profile is open, only scopes that stand inside of it are its children. -/
structure Profile.Open (profile : Profile) : Prop extends profile.Structured where
  inside : ∀ child ∈ profile.inner.values, child.scope.external = false

/-- The scopes that can be open at a time: a profile, perhaps with a child inside it, or a hat that stands
outside of its profile.  Only the profile has children. -/
inductive Stacked : List Profile → Prop
  | none : Stacked []
  | root {profile : Profile} (whole : profile.Open) : Stacked [profile]
  | hat {scope : Scope} {root : String} (behind : scope.ExternalHatOf root) : Stacked [{ scope }]
  | child {profile : Profile} {scope : Scope} (whole : profile.Open)
      (kind : scope.kind = .child ∨ scope.kind = .hat) (inFile : scope.external = false) :
      Stacked [{ scope }, profile]

structure ReaderState.Structured (state : ReaderState) : Prop where
  finished : ∀ profile ∈ state.finished, profile.Structured
  distinct : (state.finished.map fun profile => profile.scope.name).Nodup
  names : state.names = state.finished.map fun profile => profile.scope.name
  stack : Stacked state.stack

namespace Profile.Structured

variable {profile filled : Profile} {child : Scope}

theorem alone (structured : profile.Structured) : ∀ child ∈ profile.inner.values, child.inner = .empty := by
  rw [SortedMap.values, List.forall_mem_map]
  exact fun entry member => (structured.children entry member).2.1

theorem parent (structured : profile.Structured) :
    profile.Every fun scope => ∀ {root : String}, scope.parent = some root → root = profile.scope.name := by
  rw [Every, scopes_eq_of_alone structured.alone, List.forall_mem_cons, SortedMap.values, List.map_map,
    List.forall_mem_map]
  constructor
  · simp [structured.root.parent]
  · intro entry member root given
    exact Option.some.inj (given.symm.trans (structured.children entry member).2.2.parent)

theorem insert (structured : profile.Structured) (child : Scope)
    (fresh : profile.inner.contains child.name = false) (belongs : child.BelongsTo profile.scope.name) :
    (profile.withInner (profile.inner.insert child.name { scope := child })).Structured := by
  have entries := SortedMap.insert_perm_of_absent (SortedMap.contains_eq_false_iff.mp fresh) { scope := child }
  refine ⟨structured.root, fun entry member => ?_⟩
  rw [inner_withInner] at member
  rcases List.mem_cons.mp (entries.mem_iff.mp member) with rfl | known
  · exact ⟨rfl, rfl, belongs⟩
  · exact structured.children entry known

theorem addInner (structured : profile.Structured) (kind : child.kind = .child ∨ child.kind = .hat)
    (external : child.external → child.kind = .hat) (added : profile.addInner { scope := child } = .ok filled) :
    filled.Structured ∧ filled.scope = profile.scope := by
  obtain ⟨_, fresh, rfl⟩ := Profile.addInner_eq_ok_iff.mp added
  have whole := structured.insert { child with parent := some profile.scope.name } fresh ⟨kind, rfl, external⟩
  exact ⟨whole, rfl⟩

theorem ensureHat (structured : profile.Structured) (name : String) :
    (profile.ensureHat name).Structured ∧ (profile.ensureHat name).scope = profile.scope := by
  unfold Profile.ensureHat
  split
  · exact ⟨structured, rfl⟩
  next unknown =>
    have whole := structured.insert
      { name, kind := .hat, filename := profile.scope.filename, parent := some profile.scope.name }
      (by simpa using unknown) ⟨.inr rfl, rfl, fun _ => rfl⟩
    exact ⟨whole, rfl⟩

theorem foldl_ensureHat (structured : profile.Structured) (names : List String) :
    (names.foldl Profile.ensureHat profile).Structured ∧
      (names.foldl Profile.ensureHat profile).scope = profile.scope := by
  induction names generalizing profile with
  | nil => exact ⟨structured, rfl⟩
  | cons name names ih =>
    obtain ⟨first, same⟩ := structured.ensureHat name
    obtain ⟨all, sameAll⟩ := ih first
    exact ⟨all, sameAll.trans same⟩

end Profile.Structured

/-! ## Turns -/

section Turns

open Reader

variable {hatsFor : String → List String} {line : List Char} {state next : ReaderState}

/-- Where a profile is on top, nothing else is open. -/
theorem ReaderState.Structured.holder {outer : Profile} {below : List Profile} (structured : state.Structured)
    (inside : state.stack = outer :: below) (kind : outer.scope.kind = .profile) : outer.Open ∧ below = [] := by
  have stacked := structured.stack
  rw [inside] at stacked
  cases stacked with
  | root whole => exact ⟨whole, rfl⟩
  | hat behind => cases behind.kind.symm.trans kind
  | child whole child => rcases child with child | hat <;> simp_all

theorem structured_giveToParent {parent : String} {hat : Scope} {profiles result : List Profile}
    (structured : ∀ profile ∈ profiles, profile.Structured) (kind : hat.kind = .hat)
    (given : ReaderState.giveToParent parent { scope := hat } profiles = .ok result) :
    (∀ profile ∈ result, profile.Structured) ∧
      result.map (fun profile => profile.scope.name) = profiles.map fun profile => profile.scope.name := by
  obtain ⟨before, profile, filled, behind, rfl, _, added, rfl⟩ := giveToParent_eq_ok given
  rw [List.forall_mem_append, List.forall_mem_cons] at structured ⊢
  obtain ⟨first, here, last⟩ := structured
  obtain ⟨whole, same⟩ := here.addInner (.inr kind) (fun _ => kind) added
  exact ⟨⟨first, whole, last⟩, by simp [same]⟩

/-- Each turn leaves the scopes as they should be nested.  A scope is opened inside of a profile only, and
only a profile is given children, so that no child is. -/
theorem structured_turn (structured : state.Structured) (turn : Turn hatsFor line state next) :
    next.Structured := by
  have stacked := structured.stack
  cases turn with
  | idle comments pending skipping => exact { structured with }
  | openTop outside place empty =>
    refine { structured with stack := ?_ }
    rcases place with root | hat
    · refine .root ⟨⟨root, ?_⟩, ?_⟩ <;> rw [Profile.inner_mk] <;> exact fun _ impossible => nomatch impossible
    · obtain ⟨root, hat⟩ := hat
      exact .hat hat
  | openInner inside holder kind inFile empty comments =>
    obtain ⟨whole, rfl⟩ := structured.holder inside holder
    exact { structured with stack := .child whole kind inFile }
  | closeInner nested added =>
    rw [nested] at stacked
    cases stacked with
    | child whole kind inFile =>
      have filled := whole.addInner kind (fun external => by rw [inFile] at external; cases external) added
      obtain ⟨_, fresh, rfl⟩ := Profile.addInner_eq_ok_iff.mp added
      refine { structured with stack := .root ⟨filled.1, fun child member => ?_⟩ }
      rw [Profile.inner_withInner, SortedMap.mem_values_insert (SortedMap.contains_eq_false_iff.mp fresh)] at member
      rcases member with rfl | known
      · exact inFile
      · exact whole.inside child known
  | closeHat inside external given =>
    rw [inside] at stacked
    cases stacked with
    | root whole =>
      rw [whole.root.inFile] at external
      cases external
    | hat hat =>
      obtain ⟨others, names⟩ := structured_giveToParent structured.finished hat.kind given
      exact ⟨others, by rw [names]; exact structured.distinct, by rw [names]; exact structured.names, .none⟩
  | @closeRoot profile inside inFile unknown =>
    rw [inside] at stacked
    cases stacked with
    | root root =>
      obtain ⟨whole, same⟩ := root.foldl_ensureHat (hatsFor profile.scope.name)
      refine ⟨?_, ?_, by simp [structured.names, same], .none⟩
      · rw [List.forall_mem_append, List.forall_mem_singleton]
        exact ⟨structured.finished, whole⟩
      · rw [List.map_append, List.map_singleton, same, List.nodup_append]
        refine ⟨structured.distinct, by simp, ?_⟩
        rintro _ earlier _ last rfl
        obtain ⟨known, member, sameName⟩ := List.mem_map.mp earlier
        exact unknown known member (sameName.trans (List.mem_singleton.mp last))
    | hat hat =>
      rw [hat.external] at inFile
      cases inFile
  | define stated => exact { structured with }
  | collect stated => exact { structured with }
  | fill stated inside =>
    rw [inside] at stacked
    refine { structured with stack := ?_ }
    cases stacked with
    | root whole =>
      have root := whole.root
      exact .root ⟨⟨⟨root.kind, root.inFile, root.parent, root.name⟩, whole.children⟩, whole.inside⟩
    | hat hat => exact .hat ⟨hat.kind, hat.external, hat.parent, hat.name⟩
    | child whole kind inFile => exact .child whole kind inFile

end Turns

/-! ## Texts -/

section Texts

open Reader

variable {kind : TextKind} {hatsFor : String → List String} {state final : ReaderState}

theorem ReaderState.Structured.initial (filename : String) : ReaderState.Structured { filename } where
  finished _ impossible := nomatch impossible
  distinct := .nil
  names := rfl
  stack := .none

theorem structured_plan {number : Nat} {lines : List (List Char)} (structured : state.Structured)
    (ended : (plan kind hatsFor number lines state).result = .ok final) : final.Structured := by
  have cleared : ∀ (_ : List (Nat × Inclusion)) (state : ReaderState), state.Structured →
      ReaderState.Structured { state with pending := none } := fun _ _ known => { known with }
  exact plan_preserves cleared (fun _ _ _ _ _ known turn => structured_turn known turn) [] structured ended

theorem Stacked.length_le {stack : List Profile} (stacked : Stacked stack) : stack.length ≤ 2 := by
  cases stacked with
  | none => exact Nat.zero_le 2
  | root | hat => exact Nat.le_succ 1
  | child => exact Nat.le_refl 2

end Texts

/-- Profiles stand on their own, under distinct names; their children belong to them. -/
structure ParsedFile.Structured (file : ParsedFile) : Prop where
  profiles : ∀ profile ∈ file.profiles, profile.Structured
  unsplit : ∀ profile ∈ file.profiles, ¬['/', '/'] <:+: profile.scope.name.toList
  distinct : (file.profiles.map fun profile => profile.scope.name).Nodup
  names : file.profileNames = file.profiles.map fun profile => profile.scope.name

theorem ReaderState.Structured.parsed {state : ReaderState} (structured : state.Structured) :
    state.parsed.Structured where
  profiles := structured.finished
  unsplit profile member := splitDoubleSlash?_eq_none_iff.mp (structured.finished profile member).root.name
  distinct := structured.distinct
  names := structured.names

/-- Scopes are nested and named as they should be, in every file that is read and at every moment of
reading, under any configuration.  There are never more than two open scopes. -/
theorem Reading.text_structured (files : FileSystem) (content filename : String) (session : Session) :
    (∀ file after, (Reading.text files content filename).outcome session = (.ok file, after) →
      file.Structured) ∧ ∀ lines state after,
      (Reader.readLines .profiles (Include.resolve files) 1 lines { filename }).outcome session =
          (.ok state, after) → state.Structured ∧ state.stack.length ≤ 2 := by
  constructor
  · intro file after success
    obtain ⟨state, _, planned, rfl⟩ := Include.text_eq_ok success
    obtain ⟨last, ended, finished⟩ := Checked.bind_eq_ok.mp planned
    obtain ⟨rfl, _⟩ := Reader.finish_eq_ok finished
    exact (structured_plan (.initial filename) ended).parsed
  · intro lines state after success
    have resolves : ∀ inclusion, (Include.resolve files inclusion).Follows session.config
        session.inProgress _ :=
      Include.follows_resolveWith fun path => Include.follows_readWithin files (files.size + 2) path
    obtain ⟨warnings, outcome⟩ :=
      Reader.follows_readLines resolves .profiles 1 lines { filename } session rfl rfl
    rw [success] at outcome
    have planned := (Reader.perform_eq_ok (Prod.ext (Prod.mk.inj outcome).1.symm rfl)).2
    have structured := structured_plan (.initial filename) planned
    exact ⟨structured, structured.stack.length_le⟩

/-- A profile with a profile and a hat inside, a hat behind it, and a hat that it must have. -/
theorem Reading.text_structured_hats :
    let config : Config := { requiredHats := [{ profileGlob := "/a", hats := ["r"] }] }
    let content := "/a \x7b\n profile c \x7b\n \x7d\n ^h \x7b\n \x7d\n\x7d\n/a//e \x7b\n\x7d\n"
    ∃ file after, (Reading.text {} content "f").outcome { config } = (.ok file, after) ∧
      (file.profiles.map fun profile => profile.children.keys) = [["c", "e", "h", "r"]] ∧
      file.Structured := by
  intro config content
  obtain ⟨file, after, result, keys⟩ := Reading.exists_ok ((Reading.text {} content "f").outcome { config })
    (fun file => (file.profiles.map fun profile => profile.children.keys) = [["c", "e", "h", "r"]])
    (by decide +kernel)
  exact ⟨file, after, result, keys, (Reading.text_structured {} content "f" { config }).1 file after result⟩

end ArmorPolicy
