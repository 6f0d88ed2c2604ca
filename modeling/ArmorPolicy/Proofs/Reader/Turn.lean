import ArmorPolicy.Proofs.Glob.Literal
import ArmorPolicy.Proofs.Reader.Listing

/-!
# What one line can do

A line opens a scope, closes one, states a rule, or leaves scopes and rules alone.  These are all the
ways in which scopes come about and rules get into them, under any configuration.  What each of them
keeps holds of every text: every include that a text leaves behind, in its preamble, in the rules of a
fragment or in a scope, was stated by one of its lines and asked for when that line was read.
-/

namespace ArmorPolicy

/-! ## Opening, closing and stating -/

section Success

open Checked Except List String

variable {header : HeaderLine} {state next : ReaderState} {rule : Rule} {base scope : Scope}

theorem dressed_eq_ok (success : ReaderState.dressed base header = .ok scope) :
    ∃ attachment : Option Pattern,
      attachment = header.attachment.map (fun glob => ⟨glob, none⟩) ∧
      (∀ pattern, attachment = some pattern → Pattern.ofText pattern.glob true = .ok pattern) ∧
      scope = { base with
        profileWord := header.profileWord, attachment, xattrs := header.xattrs
        flags := (header.flags.map Flags.ofText).getD .empty, headerComment := header.comment } := by
  unfold ReaderState.dressed at success
  cases given : header.attachment with
  | none =>
    rw [given] at success
    refine ⟨none, rfl, ?_, (ok.inj success).symm⟩
    intro pattern impossible
    cases impossible
  | some glob =>
    rw [given] at success
    obtain ⟨attachment, made, rest⟩ := bind_eq_ok.mp success
    obtain ⟨pattern, valid, rfl⟩ := map_eq_ok.mp made
    have same := Pattern.ofText_eq_ok valid
    refine ⟨some pattern, by rw [same]; rfl, ?_, (ok.inj rest).symm⟩
    intro other equal
    cases equal
    rw [same] at valid ⊢
    exact valid

theorem append_of_splitDoubleSlash? {s before behind : List Char}
    (found : ReaderState.splitDoubleSlash? s = some (before, behind)) :
    s = before ++ '/' :: '/' :: behind := by
  fun_induction ReaderState.splitDoubleSlash? s generalizing before with
  | case1 => cases found
  | case2 rest =>
    cases found
    rfl
  | case3 c rest _ ih =>
    obtain ⟨⟨start, behind⟩, success, ⟨⟩⟩ := Option.map_eq_some_iff.mp found
    rw [ih success]
    rfl

theorem topScope_eq_ok {name : String} (success : state.topScope name = .ok scope) :
    scope.shownName = name ∧ scope.rules = {} ∧ (scope.Root ∨ ∃ root, scope.ExternalHatOf root) := by
  unfold ReaderState.topScope at success
  split at success
  next whole =>
    cases success
    exact ⟨rfl, rfl, .inl ⟨rfl, rfl, rfl, whole⟩⟩
  next parent hat cut =>
    simp only at success
    split at success
    · cases success
      have text : String.ofList parent ++ "//" ++ String.ofList hat = name := by
        rw [← toList_inj, append_of_splitDoubleSlash? cut]
        simp
      refine ⟨text, rfl, .inr ⟨String.ofList parent, rfl, rfl, rfl, ?_⟩⟩
      simp only [Scope.fullName, text, toList_ofList, cut]
    · cases success

theorem innerScope_eq_ok {outer : Scope} (success : state.innerScope outer header = .ok scope) :
    header.profileWord ∧ outer.kind = .profile ∧
      scope = { name := header.name, kind := .child, filename := state.filename } := by
  unfold ReaderState.innerScope at success
  split at success
  · cases success
  next worded =>
    split at success
    · cases success
    next kind => exact ⟨by simpa using worded, by simpa using kind, (ok.inj success).symm⟩

theorem giveToParent_eq_ok {parent : String} {hat : Profile} {profiles result : List Profile}
    (success : ReaderState.giveToParent parent hat profiles = .ok result) :
    ∃ before profile filled behind, profiles = before ++ profile :: behind ∧
      profile.scope.name = parent ∧ profile.addInner hat = .ok filled ∧
      result = before ++ filled :: behind := by
  induction profiles generalizing result with
  | nil => cases success
  | cons profile rest ih =>
    rw [ReaderState.giveToParent] at success
    split at success
    next named =>
      obtain ⟨filled, added, rfl⟩ := map_eq_ok.mp success
      exact ⟨[], profile, filled, rest, rfl, named, added, rfl⟩
    · obtain ⟨others, further, rfl⟩ := map_eq_ok.mp success
      obtain ⟨before, found, filled, behind, rfl, named, added, rfl⟩ := ih further
      exact ⟨profile :: before, found, filled, behind, rfl, named, added, rfl⟩

theorem every_giveToParent {P : Scope → Prop} {parent : String} {hat : Profile} {profiles result : List Profile}
    (every : ∀ profile ∈ profiles, profile.Every P) (own : hat.Every P)
    (adopted : P { hat.scope with parent := some parent })
    (given : ReaderState.giveToParent parent hat profiles = .ok result) : ∀ profile ∈ result, profile.Every P := by
  obtain ⟨before, profile, filled, behind, rfl, rfl, added, rfl⟩ := giveToParent_eq_ok given
  rw [forall_mem_append, forall_mem_cons] at every ⊢
  obtain ⟨first, here, last⟩ := every
  exact ⟨first, here.addInner own adopted added, last⟩

theorem finishProfile_eq_ok {hatsFor : String → List String} {profile : Profile}
    (success : state.finishProfile hatsFor profile = .ok next) :
    (∀ known ∈ state.finished, known.scope.name ≠ profile.scope.name) ∧
      next = { state with
        stack := []
        finished := state.finished ++ [(hatsFor profile.scope.name).foldl Profile.ensureHat profile]
        names := state.names ++ [profile.scope.name] } := by
  simp only [ReaderState.finishProfile] at success
  split at success
  · cases success
  next unknown =>
    simp only [any_eq_true, beq_iff_eq, not_exists, not_and] at unknown
    exact ⟨unknown, (ok.inj success).symm⟩

theorem addToScope_eq_ok {filled : Scope} (success : ReaderState.addToScope scope rule = .ok filled) :
    rule.kind ∈ Ruleset.scopeOrder ∧ filled = scope.addAll [rule] := by
  unfold ReaderState.addToScope at success
  split at success
  · cases success
  · obtain ⟨rules, added, rfl⟩ := map_eq_ok.mp success
    unfold Ruleset.addInside at added
    split at added
    next known =>
      cases added
      exact ⟨contains_iff_mem.mp known, rfl⟩
    · cases added

theorem Preamble.add_eq_ok {preamble filled : Preamble} (success : preamble.add rule = .ok filled) :
    rule.kind ∈ Preamble.order ∧ (∀ known ∈ preamble.ruleset.rules, ¬known.Clashes rule) ∧
      filled = ⟨preamble.ruleset.add rule⟩ := by
  unfold Preamble.add at success
  split at success
  next known =>
    obtain ⟨ruleset, defined, rfl⟩ := map_eq_ok.mp success
    have clear : ∀ known ∈ preamble.ruleset.rules, ¬known.Clashes rule := by
      intro known member clash
      obtain ⟨error, refused⟩ := Ruleset.define_of_clash member clash
      rw [refused] at defined
      cases defined
    rw [Ruleset.define_of_no_clash clear] at defined
    exact ⟨contains_iff_mem.mp known, clear, by rw [ok.inj defined]⟩
  · cases success

theorem Reader.finish_eq_ok {final : ReaderState} {lastLine : Nat}
    (success : Reader.finish state lastLine = .ok final) : final = state ∧ state.stack = [] := by
  obtain ⟨same, _, _, outside⟩ := Reader.finish_eq_ok_iff.mp success
  exact ⟨same, outside⟩

end Success

/-! ## One line -/

namespace Reader

open Checked Text

inductive Turn (hatsFor : String → List String) (line : List Char) (state : ReaderState) :
    ReaderState → Prop
  | idle (comments : List String) (pending : Option (List Char × Nat)) (skipping : Nat) :
      Turn hatsFor line state { state with comments, pending, skipping }
  | openTop {scope : Scope} (outside : state.stack = [])
      (place : scope.Root ∨ ∃ root, scope.ExternalHatOf root) (empty : scope.rules = {}) :
      Turn hatsFor line state { state with stack := [{ scope }], comments := [] }
  | openInner {outer : Profile} {below : List Profile} {child : Scope} (inside : state.stack = outer :: below)
      (holder : outer.scope.kind = .profile) (kind : child.kind = .child ∨ child.kind = .hat)
      (inFile : child.external = false) (empty : child.rules = {}) (comments : List String) :
      Turn hatsFor line state { state with stack := { scope := child } :: outer :: below, comments }
  | closeInner {inner outer filled : Profile} {below : List Profile} (nested : state.stack = inner :: outer :: below)
      (added : outer.addInner inner = .ok filled) :
      Turn hatsFor line state { state with stack := filled :: below, comments := [] }
  | closeHat {profile : Profile} {finished : List Profile} (inside : state.stack = [profile])
      (external : profile.scope.external = true)
      (given : ReaderState.giveToParent (profile.scope.parent.getD "") profile state.finished = .ok finished) :
      Turn hatsFor line state { state with stack := [], finished, comments := [] }
  | closeRoot {profile : Profile} (inside : state.stack = [profile])
      (inFile : profile.scope.external = false)
      (unknown : ∀ known ∈ state.finished, known.scope.name ≠ profile.scope.name) :
      Turn hatsFor line state { state with
        stack := []
        finished := state.finished ++ [(hatsFor profile.scope.name).foldl Profile.ensureHat profile]
        names := state.names ++ [profile.scope.name]
        comments := [] }
  | define {rule : Rule} (stated : asked state line = Ruleset.inclusions ⟨[rule]⟩) :
      Turn hatsFor line state { state with preamble := ⟨state.preamble.ruleset.add rule⟩, comments := [] }
  | collect {rule : Rule} (stated : asked state line = Ruleset.inclusions ⟨[rule]⟩) :
      Turn hatsFor line state { state with rules := state.rules.add rule, comments := [] }
  | fill {profile : Profile} {below : List Profile} {rule : Rule}
      (stated : asked state line = Ruleset.inclusions ⟨[rule]⟩) (inside : state.stack = profile :: below) :
      Turn hatsFor line state { state with stack := profile.addAll [rule] :: below, comments := [] }

variable {kind : TextKind} {hatsFor : String → List String} {state next : ReaderState} {line : List Char}

theorem turn_skipLine : Turn hatsFor line state (state.skipLine line) := by
  rw [skipLine_eq]
  exact .idle state.comments state.pending (blocksBehind state.skipping line)

theorem turn_addComment : Turn hatsFor line state (state.addComment kind line) := by
  unfold ReaderState.addComment
  split
  · exact .idle state.comments state.pending state.skipping
  · exact .idle (state.comments ++ [String.ofList line]) state.pending state.skipping

theorem turn_openProfile {header : HeaderLine} (success : state.openProfile kind header = .ok next) :
    Turn hatsFor line state next := by
  obtain ⟨_, base, scope, based, dressed, rfl⟩ := openProfile_eq_ok success
  obtain ⟨attachment, _, _, rfl⟩ := dressed_eq_ok dressed
  unfold ReaderState.openedScope at based
  split at based
  next here =>
    obtain ⟨_, noRules, place⟩ := topScope_eq_ok based
    rw [here]
    refine .openTop here ?_ noRules
    rcases place with root | ⟨root, hat⟩
    · exact .inl ⟨root.kind, root.inFile, root.parent, root.name⟩
    · exact .inr ⟨root, hat.kind, hat.external, hat.parent, hat.name⟩
  next outer below here =>
    obtain ⟨_, holder, rfl⟩ := innerScope_eq_ok based
    rw [here]
    exact .openInner here holder (.inl rfl) rfl rfl []

theorem turn_openHat {hat : HatLine} (success : state.openHat kind hat = .ok next) :
    Turn hatsFor line state next := by
  obtain ⟨outer, below, here, holder, rfl⟩ := openHat_eq_ok success
  exact .openInner here holder (.inr rfl) rfl rfl state.comments

theorem turn_close (success : state.close hatsFor = .ok next) : Turn hatsFor line state next := by
  unfold ReaderState.close at success
  simp only at success
  split at success
  · cases success
  next inner outer below here =>
    obtain ⟨filled, added, rfl⟩ := map_eq_ok.mp success
    exact .closeInner here added
  next profile here =>
    split at success
    next external =>
      obtain ⟨finished, given, rfl⟩ := map_eq_ok.mp success
      exact .closeHat here external given
    next inFile =>
      obtain ⟨unknown, rfl⟩ := finishProfile_eq_ok success
      exact .closeRoot here (by simpa using inFile) unknown

theorem turn_place {rule : Rule} (stated : asked state line = Ruleset.inclusions ⟨[rule]⟩)
    (success : { state with comments := [] }.place kind rule = .ok next) :
    Turn hatsFor line state next := by
  unfold ReaderState.place at success
  split at success
  · split at success
    · obtain ⟨preamble, added, rfl⟩ := map_eq_ok.mp success
      obtain ⟨_, _, rfl⟩ := Preamble.add_eq_ok added
      exact .define stated
    · obtain ⟨rules, added, rfl⟩ := map_eq_ok.mp success
      unfold Ruleset.addInside at added
      split at added
      · cases added
        exact .collect stated
      · cases added
  · obtain ⟨preamble, added, rfl⟩ := map_eq_ok.mp success
    obtain ⟨_, _, rfl⟩ := Preamble.add_eq_ok added
    exact .define stated
  next inner below _ here =>
    obtain ⟨scope, added, rfl⟩ := map_eq_ok.mp success
    obtain ⟨_, rfl⟩ := addToScope_eq_ok added
    exact .fill stated here

theorem turn_of_stepAs {start : Nat} (stepped : stepAs kind hatsFor state line start = .ok next) :
    Turn hatsFor line state next := by
  cases stepAs_eq_ok stepped with
  | skip => exact turn_skipLine
  | header _ _ opened => exact turn_openProfile opened
  | hat _ _ opened => exact turn_openHat opened
  | closing _ _ closed => exact turn_close closed
  | conditional => exact .idle state.comments state.pending 1
  | changeHat => exact .idle state.comments state.pending state.skipping
  | comment => exact turn_addComment
  | statement reads form read placed =>
    refine turn_place ?_ placed
    rw [asked, if_neg reads, form, read]
  | unfinished => exact .idle state.comments _ state.skipping

/-! ## Runs -/

variable {P : List (Nat × Inclusion) → ReaderState → Prop} {final : ReaderState}

/-- What every turn keeps, together with the includes that have been stated so far, holds after all
lines. -/
theorem plan_preserves (cleared : ∀ earlier state, P earlier state → P earlier { state with pending := none })
    (turn : ∀ earlier state number line next, P earlier state → Turn hatsFor line state next →
      P (earlier ++ (asked state line).map (number, ·)) next)
    {number : Nat} {lines : List (List Char)} (earlier : List (Nat × Inclusion))
    (start : P earlier state) (ended : (plan kind hatsFor number lines state).result = .ok final) :
    P (earlier ++ (plan kind hatsFor number lines state).asked) final := by
  induction lines generalizing number state earlier with
  | nil =>
    cases ended
    rw [plan, List.append_nil]
    exact start
  | cons line rest ih =>
    simp only [plan] at ended ⊢
    split at ended
    next blank =>
      rw [if_pos blank]
      exact ih earlier start ended
    next solid =>
      rw [if_neg solid]
      split at ended
      · cases ended
      next next stepped =>
        have after := turn earlier _ number _ next (cleared earlier state start) (turn_of_stepAs stepped)
        have all := ih _ after ended
        rw [List.append_assoc] at all
        exact all

theorem planText_preserves
    (cleared : ∀ earlier state, P earlier state → P earlier { state with pending := none })
    (turn : ∀ earlier state number line next, P earlier state → Turn hatsFor line state next →
      P (earlier ++ (asked state line).map (number, ·)) next)
    {filename text : String} (start : P [] { filename })
    (ended : (planText kind hatsFor filename text).result = .ok final) :
    P (planText kind hatsFor filename text).asked final := by
  obtain ⟨last, reached, finished⟩ := bind_eq_ok.mp ended
  obtain ⟨rfl, _⟩ := finish_eq_ok finished
  exact plan_preserves cleared turn [] start reached

theorem Turn.kept_of_outside (turn : Turn hatsFor line state next) (outside : state.stack = []) :
    next.finished = state.finished ∧ next.names = state.names := by
  cases turn with
  | closeHat inside => cases inside.symm.trans outside
  | closeRoot inside => cases inside.symm.trans outside
  | _ => exact ⟨rfl, rfl⟩

/-- An included text opens no scope, so that no profile gets a name in it. -/
theorem names_of_fragment {number : Nat} {lines : List (List Char)} (outside : state.stack = [])
    (ended : (plan .fragment hatsFor number lines state).result = .ok final) : final.names = state.names := by
  induction lines generalizing number state with
  | nil =>
    cases ended
    rfl
  | cons line rest ih =>
    rcases plan_cons_eq_ok ended with ⟨_, ended⟩ | ⟨next, stepped, ended⟩
    · exact ih outside ended
    · have cleared : ({ state with pending := none } : ReaderState).stack = [] := outside
      rw [ih (outside_of_stepAs cleared (.inl rfl) stepped) ended]
      exact ((turn_of_stepAs stepped).kept_of_outside cleared).2

theorem names_planText_fragment {filename text : String}
    (ended : (planText .fragment hatsFor filename text).result = .ok final) : final.names = [] := by
  obtain ⟨last, reached, finished⟩ := bind_eq_ok.mp ended
  obtain ⟨rfl, _⟩ := finish_eq_ok finished
  exact names_of_fragment rfl reached

end Reader

/-! ## Where includes come from -/

open List Reader

variable {earlier : List (Nat × Inclusion)}

/-- All includes of the ruleset are among those that were asked for. -/
def Ruleset.StatedIn (ruleset : Ruleset) (asked : List (Nat × Inclusion)) : Prop :=
  ∀ inclusion ∈ ruleset.inclusions, ∃ line, (line, inclusion) ∈ asked

namespace Ruleset

theorem statedIn_empty (asked : List (Nat × Inclusion)) : StatedIn {} asked :=
  nofun

theorem StatedIn.append {ruleset : Ruleset} (stated : ruleset.StatedIn earlier)
    (later : List (Nat × Inclusion)) : ruleset.StatedIn (earlier ++ later) := by
  intro inclusion member
  obtain ⟨line, asked⟩ := stated inclusion member
  exact ⟨line, mem_append_left later asked⟩

theorem StatedIn.add {ruleset : Ruleset} (stated : ruleset.StatedIn earlier) (number : Nat) (rule : Rule) :
    (ruleset.add rule).StatedIn (earlier ++ (inclusions ⟨[rule]⟩).map (number, ·)) := by
  intro inclusion member
  have either : inclusion ∈ ruleset.inclusions ∨ inclusion ∈ inclusions ⟨[rule]⟩ := by
    rwa [← mem_append, inclusions, inclusions, ← filterMap_append]
  rcases either with before | new
  · exact stated.append _ inclusion before
  · exact ⟨number, mem_append_right earlier (mem_map_of_mem new)⟩

end Ruleset

def Profile.Stated (asked : List (Nat × Inclusion)) : Profile → Prop :=
  Every fun scope => scope.rules.StatedIn asked

structure ReaderState.Stated (asked : List (Nat × Inclusion)) (state : ReaderState) : Prop where
  preamble : state.preamble.ruleset.StatedIn asked
  rules : state.rules.StatedIn asked
  finished : ∀ profile ∈ state.finished, profile.Stated asked
  stack : ∀ profile ∈ state.stack, profile.Stated asked

/-! ## Profiles -/

namespace Profile.Stated

variable {profile : Profile}

theorem append (stated : profile.Stated earlier) (later : List (Nat × Inclusion)) :
    profile.Stated (earlier ++ later) :=
  fun scope member => (stated scope member).append later

theorem foldl_ensureHat (stated : profile.Stated earlier) (names : List String) :
    (names.foldl Profile.ensureHat profile).Stated earlier := by
  induction names generalizing profile with
  | nil => exact stated
  | cons name names ih =>
    refine ih ?_
    unfold Profile.ensureHat
    split
    · exact stated
    next unknown =>
      refine Every.insert stated (by simpa using unknown) (.ofScope ?_)
      exact Ruleset.statedIn_empty earlier

end Profile.Stated

/-! ## Turns and texts -/

section Turns

variable {hatsFor : String → List String} {line : List Char} {state next : ReaderState}

theorem ReaderState.Stated.append (stated : state.Stated earlier) (later : List (Nat × Inclusion)) :
    state.Stated (earlier ++ later) where
  preamble := stated.preamble.append later
  rules := stated.rules.append later
  finished profile member := (stated.finished profile member).append later
  stack profile member := (stated.stack profile member).append later

theorem stated_turn (stated : state.Stated earlier) (number : Nat) (turn : Turn hatsFor line state next) :
    next.Stated (earlier ++ (asked state line).map (number, ·)) := by
  have kept := stated.append ((asked state line).map (number, ·))
  have opened := kept.stack
  cases turn with
  | idle comments pending skipping => exact { kept with }
  | openTop outside place empty =>
    refine { kept with stack := forall_mem_singleton.mpr (.ofScope ?_) }
    rw [empty]
    exact Ruleset.statedIn_empty _
  | openInner inside holder kind inFile empty comments =>
    rw [inside] at opened
    refine { kept with stack := forall_mem_cons.mpr ⟨.ofScope ?_, opened⟩ }
    rw [empty]
    exact Ruleset.statedIn_empty _
  | closeInner nested added =>
    rw [nested, forall_mem_cons, forall_mem_cons] at opened
    exact { kept with stack := forall_mem_cons.mpr ⟨opened.2.1.addInner opened.1 opened.1.own added, opened.2.2⟩ }
  | closeHat inside external given =>
    rw [inside, forall_mem_singleton] at opened
    exact { kept with finished := every_giveToParent kept.finished opened opened.own given, stack := forall_mem_nil _ }
  | closeRoot inside inFile unknown =>
    rw [inside, forall_mem_singleton] at opened
    refine { kept with finished := ?_, stack := forall_mem_nil _ }
    rw [forall_mem_append, forall_mem_singleton]
    exact ⟨kept.finished, opened.foldl_ensureHat _⟩
  | define asks => exact { kept with preamble := asks ▸ stated.preamble.add number _ }
  | collect asks => exact { kept with rules := asks ▸ stated.rules.add number _ }
  | @fill profile below rule asks inside =>
    have before := stated.stack
    rw [inside, forall_mem_cons] at opened before
    refine { kept with stack := forall_mem_cons.mpr ⟨opened.1.withScope ?_, opened.2⟩ }
    rw [asks]
    exact before.1.own.add number rule

theorem stated_planText {kind : TextKind} {filename text : String} {final : ReaderState}
    (ended : (planText kind hatsFor filename text).result = .ok final) :
    final.Stated (planText kind hatsFor filename text).asked := by
  have cleared : ∀ (earlier : List (Nat × Inclusion)) (state : ReaderState), state.Stated earlier →
      ReaderState.Stated earlier { state with pending := none } := fun _ _ known => { known with }
  have initial : ReaderState.Stated [] { filename } :=
    ⟨Ruleset.statedIn_empty [], Ruleset.statedIn_empty [], forall_mem_nil _, forall_mem_nil _⟩
  exact planText_preserves cleared (fun _ _ number _ _ known turn => stated_turn known number turn) initial
    ended

end Turns

def ParsedFile.rulesets (file : ParsedFile) : List Ruleset :=
  file.preamble.ruleset :: (file.profiles.flatMap Profile.scopes).map Scope.rules

theorem ReaderState.Stated.parsed {asked : List (Nat × Inclusion)} {state : ReaderState}
    (stated : state.Stated asked) : ∀ ruleset ∈ state.parsed.rulesets, ruleset.StatedIn asked := by
  intro ruleset member
  rcases mem_cons.mp member with rfl | among
  · exact stated.preamble
  · obtain ⟨scope, scopeMember, rfl⟩ := mem_map.mp among
    obtain ⟨profile, profileMember, inside⟩ := mem_flatMap.mp scopeMember
    exact stated.finished profile profileMember scope inside

end ArmorPolicy
