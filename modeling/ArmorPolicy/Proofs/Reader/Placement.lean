import ArmorPolicy.Proofs.Reader.Structure
import Mathlib.Data.List.Nodup

/-!
# Where rules go

The outline of a text is what its lines open and close, whatever they say otherwise.  It tells for
each statement in which scope it stands.  A file that was read holds, in each of its scopes and in
the preamble, the rules that are stated there, in the order of the text, and nothing else.
-/

namespace ArmorPolicy

open Checked List Text

/-! ## Places and outlines -/

inductive Place where
  | preamble
  | root (name : String)
  | child (root name : String)
  deriving DecidableEq, Repr

namespace Place

def opened : Place → String → Place
  | .preamble, name =>
    match ReaderState.splitDoubleSlash? name.toList with
    | none => .root name
    | some (profile, hat) => .child (String.ofList profile) (String.ofList hat)
  | .root profile, name | .child profile _, name => .child profile name

def profile? : Place → Option String
  | .preamble => none
  | .root profile | .child profile _ => some profile

def kinds : Place → List RuleKind
  | .preamble => Preamble.order
  | .root _ | .child _ _ => Ruleset.scopeOrder

end Place

/-- What is open behind some lines: scopes, innermost first, a statement that has not ended, and
blocks of a conditional. -/
structure Outline where
  scopes : List Place := []
  pending : Option (List Char) := none
  skipping : Nat := 0
  deriving DecidableEq, Repr

namespace Outline

def place (outline : Outline) : Place := outline.scopes.headD .preamble

def after (outline : Outline) (line : List Char) : Outline :=
  if outline.skipping ≠ 0 then
    if line.head? == some '#' || LineForm.isAlternative line then outline
    else if LineForm.isClosing line then { outline with skipping := outline.skipping - 1 }
    else if LineForm.opensBlock line then { outline with skipping := outline.skipping + 1 }
    else outline
  else
    match LineForm.ofLine line with
    | .header header => { outline with scopes := outline.place.opened header.name :: outline.scopes }
    | .hat hat => { outline with scopes := outline.place.opened hat.name :: outline.scopes }
    | .closing => { outline with scopes := outline.scopes.tail }
    | .conditional => { outline with skipping := 1 }
    | .statement =>
      if (Rule.parse? (String.ofList line)).isSome then outline
      else { outline with pending := some (LineForm.withoutComment line) }
    | .alternative | .changeHat _ | .comment => outline

def stated (outline : Outline) (line : List Char) : List (Place × Rule) :=
  if outline.skipping ≠ 0 then []
  else
    match LineForm.ofLine line, Rule.parse? (String.ofList line) with
    | .statement, some (.ok rule) => [(outline.place, rule)]
    | _, _ => []

def joined (outline : Outline) (line : List Char) : List Char :=
  match outline.pending with
  | some statement => statement ++ ' ' :: line
  | none => line

/-- The rules that lines state, with their places, in the order of the lines. -/
def statements : Outline → List (List Char) → List (Place × Rule)
  | _, [] => []
  | outline, line :: rest =>
    if (trim line).isEmpty then statements outline rest
    else
      let here := { outline with pending := none }
      let line := outline.joined (trim line)
      here.stated line ++ statements (here.after line) rest

end Outline

/-- The rules that a text states outside of conditional blocks, with their places. -/
def statementsOf (content : String) : List (Place × Rule) :=
  Outline.statements {} (lines content.toList)

def rulesAt (place : Place) (statements : List (Place × Rule)) : List Rule :=
  (statements.filter fun statement => statement.1 = place).map Prod.snd

/-! ## Rulesets and their places -/

def Scope.place (scope : Scope) : Place :=
  match scope.parent with
  | none => .root scope.name
  | some profile => .child profile scope.name

def Profile.contents (profile : Profile) : List (Place × Ruleset) :=
  profile.scopes.map fun scope => (scope.place, scope.rules)

def ParsedFile.contents (file : ParsedFile) : List (Place × Ruleset) :=
  (.preamble, file.preamble.ruleset) :: file.profiles.flatMap Profile.contents

/-- Each place has one ruleset, with the rules that are stated there, and each statement has a
place among them that has a ruleset of its kind. -/
structure Holds (contents : List (Place × Ruleset)) (statements : List (Place × Rule)) : Prop where
  distinct : (contents.map Prod.fst).Nodup
  rules : ∀ entry ∈ contents, entry.2.rules = rulesAt entry.1 statements
  placed : ∀ statement ∈ statements,
    statement.1 ∈ contents.map Prod.fst ∧ statement.2.kind ∈ statement.1.kinds

section Holds

variable {contents more : List (Place × Ruleset)} {statements later : List (Place × Rule)}
  {place : Place}

theorem rulesAt_append (place : Place) (first second : List (Place × Rule)) :
    rulesAt place (first ++ second) = rulesAt place first ++ rulesAt place second := by
  simp [rulesAt]

theorem rulesAt_eq_nil (elsewhere : ∀ statement ∈ statements, statement.1 ≠ place) :
    rulesAt place statements = [] := by
  rw [rulesAt, map_eq_nil_iff, filter_eq_nil_iff]
  simpa using elsewhere

namespace Holds

theorem opened (place : Place) : Holds [(place, {})] [] where
  distinct := by simp
  rules entry member := by
    rw [mem_singleton.mp member]
    rfl
  placed _ impossible := nomatch impossible

theorem perm (held : Holds contents statements) (same : contents.Perm more) : Holds more statements where
  distinct := ((same.map Prod.fst).nodup_iff).mp held.distinct
  rules entry member := held.rules entry (same.mem_iff.mpr member)
  placed statement member := by
    obtain ⟨present, kind⟩ := held.placed statement member
    exact ⟨(same.map Prod.fst).mem_iff.mp present, kind⟩

theorem rulesAt_of_absent (held : Holds contents statements)
    (absent : place ∉ contents.map Prod.fst) : rulesAt place statements = [] := by
  refine rulesAt_eq_nil fun statement member same => absent ?_
  rw [← same]
  exact (held.placed statement member).1

theorem append (first : Holds contents statements) (second : Holds more later)
    (apart : ∀ place ∈ contents.map Prod.fst, place ∉ more.map Prod.fst) :
    Holds (contents ++ more) (statements ++ later) where
  distinct := by
    rw [map_append, nodup_append]
    refine ⟨first.distinct, second.distinct, ?_⟩
    rintro place here _ there rfl
    exact apart place here there
  rules entry member := by
    rw [rulesAt_append]
    rcases mem_append.mp member with here | here
    · rw [second.rulesAt_of_absent (apart entry.1 (mem_map_of_mem here)), append_nil]
      exact first.rules entry here
    · rw [first.rulesAt_of_absent fun there => apart entry.1 there (mem_map_of_mem here), nil_append]
      exact second.rules entry here
  placed statement member := by
    rw [map_append, mem_append]
    rcases mem_append.mp member with here | here
    · exact ⟨.inl (first.placed statement here).1, (first.placed statement here).2⟩
    · exact ⟨.inr (second.placed statement here).1, (second.placed statement here).2⟩

theorem add {ruleset : Ruleset} {rule : Rule}
    (held : Holds ((place, ruleset) :: contents) statements) (kind : rule.kind ∈ place.kinds) :
    Holds ((place, ruleset.add rule) :: contents) (statements ++ [(place, rule)]) where
  distinct := held.distinct
  rules entry member := by
    have once : place ∉ contents.map Prod.fst := (nodup_cons.mp held.distinct).1
    rw [rulesAt_append]
    rcases mem_cons.mp member with rfl | other
    · rw [← held.rules (place, ruleset) mem_cons_self]
      simp [rulesAt, Ruleset.add]
    · have apart : place ≠ entry.1 := by
        rintro rfl
        exact once (mem_map_of_mem other)
      rw [← held.rules entry (mem_cons_of_mem _ other)]
      simp [rulesAt, apart]
  placed statement member := by
    rcases mem_append.mp member with earlier | last
    · exact held.placed statement earlier
    · rw [mem_singleton.mp last]
      exact ⟨mem_cons_self, kind⟩

end Holds

end Holds

/-! ## Profiles -/

theorem Scope.kinds_place (scope : Scope) : scope.place.kinds = Ruleset.scopeOrder := by
  unfold Scope.place
  split <;> rfl

namespace Profile

variable {profile : Profile} {statements : List (Place × Rule)}

theorem Structured.mem_places (structured : profile.Structured) {place : Place} :
    place ∈ profile.contents.map Prod.fst ↔
      place = .root profile.scope.name ∨
        ∃ entry ∈ profile.inner.entries, place = .child profile.scope.name entry.1 := by
  have here : profile.scope.place = .root profile.scope.name := by
    rw [Scope.place, structured.root.parent]
  have below : ∀ entry ∈ profile.inner.entries, entry.2.scope.place = .child profile.scope.name entry.1 := by
    intro entry member
    obtain ⟨name, _, belongs⟩ := structured.children entry member
    rw [Scope.place, belongs.parent, name]
  rw [contents, scopes_eq_of_alone structured.alone]
  simp only [SortedMap.values, map_cons, map_map, mem_cons, mem_map, Function.comp_apply, here]
  grind

theorem Structured.profile?_of_mem (structured : profile.Structured) {place : Place}
    (member : place ∈ profile.contents.map Prod.fst) : place.profile? = some profile.scope.name := by
  rcases structured.mem_places.mp member with rfl | ⟨_, _, rfl⟩ <;> rfl

theorem Structured.place_absent (structured : profile.Structured) {name : String}
    (fresh : profile.inner.contains name = false) :
    .child profile.scope.name name ∉ profile.contents.map Prod.fst := by
  intro present
  rcases structured.mem_places.mp present with impossible | ⟨entry, member, same⟩
  · cases impossible
  · exact SortedMap.contains_eq_false_iff.mp fresh entry member (Place.child.inj same).2.symm

theorem contents_insert (child : Scope) (fresh : profile.inner.contains child.name = false)
    (parent : child.parent = some profile.scope.name) :
    (profile.withInner (profile.inner.insert child.name { scope := child })).contents.Perm
      (profile.contents ++ [(Place.child profile.scope.name child.name, child.rules)]) := by
  have place : child.place = .child profile.scope.name child.name := by rw [Scope.place, parent]
  have entries := SortedMap.insert_perm_of_absent (SortedMap.contains_eq_false_iff.mp fresh) { scope := child }
  have below := ((entries.map Prod.snd).flatMap_right scopes).map fun scope => (scope.place, scope.rules)
  rw [contents, contents, scopes_eq, scopes_eq, inner_withInner, ← place]
  exact (below.trans (perm_append_singleton _ _).symm).cons _

theorem Structured.holds_insert {statements own : List (Place × Rule)}
    (structured : profile.Structured) (held : Holds profile.contents statements) (child : Scope)
    (fresh : profile.inner.contains child.name = false) (parent : child.parent = some profile.scope.name)
    (inner : Holds [(.child profile.scope.name child.name, child.rules)] own) :
    Holds (profile.withInner (profile.inner.insert child.name { scope := child })).contents
      (statements ++ own) := by
  refine (held.append inner fun place here there => ?_).perm (contents_insert child fresh parent).symm
  rw [map_singleton, mem_singleton] at there
  rw [there] at here
  exact structured.place_absent fresh here

theorem Structured.holds_ensureHat
    (structured : profile.Structured) (held : Holds profile.contents statements) (name : String) :
    Holds (profile.ensureHat name).contents statements := by
  unfold Profile.ensureHat
  split
  · exact held
  next unknown =>
    have whole := structured.holds_insert held
      { name, kind := .hat, filename := profile.scope.filename, parent := some profile.scope.name }
      (by simpa using unknown) rfl (.opened _)
    rw [append_nil] at whole
    exact whole

theorem Structured.holds_ensureHats
    (structured : profile.Structured) (held : Holds profile.contents statements) (names : List String) :
    Holds (names.foldl Profile.ensureHat profile).contents statements := by
  induction names generalizing profile with
  | nil => exact held
  | cons name names ih =>
    exact ih (structured.ensureHat name).1 (structured.holds_ensureHat held name)

end Profile

/-! ## Files -/

namespace ParsedFile

variable {file : ParsedFile} {statements own : List (Place × Rule)}

theorem mem_places {place : Place} :
    place ∈ file.contents.map Prod.fst ↔
      place = .preamble ∨ ∃ profile ∈ file.profiles, place ∈ profile.contents.map Prod.fst := by
  simp only [contents, map_cons, mem_cons, map_flatMap, mem_flatMap]

theorem holds_append {profile : Profile} (structured : ∀ known ∈ file.profiles, known.Structured)
    (whole : profile.Structured)
    (unknown : ∀ known ∈ file.profiles, known.scope.name ≠ profile.scope.name)
    (held : Holds file.contents statements) (outer : Holds profile.contents own) :
    Holds { file with profiles := file.profiles ++ [profile] }.contents (statements ++ own) := by
  have all : { file with profiles := file.profiles ++ [profile] }.contents =
      file.contents ++ profile.contents := by
    simp [contents]
  rw [all]
  refine held.append outer fun place here there => ?_
  have owner := whole.profile?_of_mem there
  rcases mem_places.mp here with rfl | ⟨known, member, present⟩
  · cases owner
  · have same := (structured known member).profile?_of_mem present
    rw [owner] at same
    exact unknown known member (Option.some.inj same).symm

theorem holds_giveToParent {root : String} {hat : Scope} {result : List Profile}
    (structured : ∀ known ∈ file.profiles, known.Structured)
    (distinct : (file.profiles.map fun profile => profile.scope.name).Nodup)
    (given : ReaderState.giveToParent root { scope := hat } file.profiles = .ok result)
    (held : Holds file.contents statements) (inner : Holds [(.child root hat.name, hat.rules)] own) :
    Holds { file with profiles := result }.contents (statements ++ own) := by
  obtain ⟨first, profile, filled, last, known, rfl, added, rfl⟩ := giveToParent_eq_ok given
  obtain ⟨_, fresh, rfl⟩ := Profile.addInner_eq_ok_iff.mp added
  have member : profile ∈ file.profiles := by simp [known]
  have grown := Profile.contents_insert { hat with parent := some profile.scope.name } fresh rfl
  refine (held.append inner fun place here there => ?_).perm ?_
  · rw [map_singleton, mem_singleton] at there
    subst there
    rcases mem_places.mp here with impossible | ⟨other, among, present⟩
    · cases impossible
    · have same := (structured other among).profile?_of_mem present
      obtain rfl := inj_on_of_nodup_map distinct member among (Option.some.inj same)
      exact (structured profile member).place_absent fresh present
  · let behind := last.flatMap Profile.contents
    let entry := (Place.child profile.scope.name hat.name, hat.rules)
    have swapped : (profile.contents ++ (behind ++ [entry])).Perm (profile.contents ++ ([entry] ++ behind)) :=
      perm_append_comm.append_left profile.contents
    have joined : profile.contents ++ ([entry] ++ behind) = profile.contents ++ [entry] ++ behind :=
      (append_assoc _ _ _).symm
    have moved := swapped.trans (joined ▸ grown.symm.append_right behind)
    simp only [contents, known, flatMap_append, flatMap_cons, cons_append, append_assoc]
    exact (moved.append_left _).cons _

end ParsedFile

/-! ## Steps -/

/-- The open scopes are those of the outline.  What has been stated so far is held by the scopes that
are closed, the open profile and its open child, one after the other. -/
def PlacedStack (contents : List (Place × Ruleset)) (scopes : List Place)
    (statements : List (Place × Rule)) : List Profile → Prop
  | [] => scopes = [] ∧ Holds contents statements
  | [profile] =>
    scopes = [profile.scope.place] ∧
      ∃ before own, statements = before ++ own ∧ Holds contents before ∧ Holds profile.contents own
  | [child, profile] =>
    scopes = [.child profile.scope.name child.scope.name, profile.scope.place] ∧
      ∃ before own inner, statements = before ++ (own ++ inner) ∧ Holds contents before ∧
        Holds profile.contents own ∧
        Holds [(.child profile.scope.name child.scope.name, child.scope.rules)] inner
  | _ => False

structure ReaderState.Placed (state : ReaderState) (outline : Outline)
    (statements : List (Place × Rule)) : Prop where
  pending : outline.pending = state.pending.map Prod.fst
  skipping : outline.skipping = state.skipping
  stack : PlacedStack state.parsed.contents outline.scopes statements state.stack

section Steps

open Reader

variable {hatsFor : String → List String} {state next : ReaderState} {outline : Outline}
  {statements : List (Place × Rule)} {line : List Char}

theorem opened_of_topScope {name : String} {scope : Scope} (top : state.topScope name = .ok scope) :
    scope.place = Place.preamble.opened name ∧ scope.rules = {} := by
  obtain ⟨shown, noRules, root | ⟨profile, hat⟩⟩ := topScope_eq_ok top
  · rw [Scope.shownName, root.inFile] at shown
    obtain rfl : scope.name = name := shown
    refine ⟨?_, noRules⟩
    rw [Scope.place, root.parent, Place.opened, root.name]
  · rw [Scope.shownName, hat.external] at shown
    obtain rfl : scope.fullName = name := shown
    refine ⟨?_, noRules⟩
    rw [Scope.place, hat.parent, Place.opened, hat.name]
    simp

theorem ReaderState.Placed.openInner {profile : Profile} {below : List Profile} {child : Scope} {comments : List String}
    (structured : state.Structured) (placed : state.Placed outline statements)
    (inside : state.stack = profile :: below) (holder : profile.scope.kind = .profile) (noRules : child.rules = {}) :
    ReaderState.Placed { state with stack := { scope := child } :: state.stack, comments }
      { outline with scopes := outline.place.opened child.name :: outline.scopes } statements := by
  obtain ⟨whole, rfl⟩ := structured.holder inside holder
  have here := placed.stack
  rw [inside] at here ⊢
  obtain ⟨scopes, before, own, rfl, held, outer⟩ := here
  have place : profile.scope.place = .root profile.scope.name := by
    rw [Scope.place, whole.root.parent]
  have empty : Holds [(.child profile.scope.name child.name, child.rules)] [] := by
    rw [noRules]
    exact .opened _
  refine ⟨placed.pending, placed.skipping, ?_, before, own, [], ?_, held, outer, empty⟩
  · rw [Outline.place, scopes, headD_cons, place]
    rfl
  · rw [append_nil]

theorem placed_openProfile {header : HeaderLine} (structured : state.Structured)
    (placed : state.Placed outline statements) (success : state.openProfile .profiles header = .ok next) :
    next.Placed { outline with scopes := outline.place.opened header.name :: outline.scopes } statements := by
  obtain ⟨_, base, scope, based, dressed, rfl⟩ := openProfile_eq_ok success
  obtain ⟨attachment, _, _, rfl⟩ := dressed_eq_ok dressed
  unfold ReaderState.openedScope at based
  split at based
  next outside =>
    obtain ⟨place, noRules⟩ := opened_of_topScope based
    have here := placed.stack
    rw [outside] at here ⊢
    obtain ⟨none, held⟩ := here
    have empty : Holds [(base.place, base.rules)] [] := by
      rw [noRules]
      exact .opened base.place
    refine ⟨placed.pending, placed.skipping, ?_, statements, [], ?_, held, empty⟩
    · rw [Outline.place, none, headD_nil, ← place]
      rfl
    · rw [append_nil]
  next outer below inside =>
    obtain ⟨_, holder, rfl⟩ := innerScope_eq_ok based
    exact placed.openInner structured inside holder rfl

theorem placed_openHat {hat : HatLine} (structured : state.Structured)
    (placed : state.Placed outline statements) (opened : state.openHat .profiles hat = .ok next) :
    next.Placed { outline with scopes := outline.place.opened hat.name :: outline.scopes } statements := by
  obtain ⟨outer, below, inside, holder, rfl⟩ := openHat_eq_ok opened
  rw [← inside]
  exact placed.openInner structured inside holder rfl

theorem placed_close (structured : state.Structured) (placed : state.Placed outline statements)
    (closed : state.close hatsFor = .ok next) :
    next.Placed { outline with scopes := outline.scopes.tail } statements := by
  have here := placed.stack
  have stacked := structured.stack
  unfold ReaderState.close at closed
  simp only at closed
  split at closed
  · cases closed
  next inner outer below nested =>
    obtain ⟨filled, added, rfl⟩ := map_eq_ok.mp closed
    rw [nested] at here stacked
    cases stacked with
    | @child _ child whole =>
      obtain ⟨scopes, before, own, inner, all, held, outer, innermost⟩ := here
      obtain ⟨_, fresh, rfl⟩ := Profile.addInner_eq_ok_iff.mp added
      have both := whole.holds_insert outer { child with parent := some _ } fresh rfl innermost
      refine ⟨placed.pending, placed.skipping, ?_, before, own ++ inner, all, held, both⟩
      rw [scopes]
      rfl
  next profile inside =>
    rw [inside] at here stacked
    obtain ⟨scopes, before, own, rfl, held, outer⟩ := here
    split at closed
    next external =>
      obtain ⟨finished, given, rfl⟩ := map_eq_ok.mp closed
      cases stacked with
      | root whole =>
        rw [whole.root.inFile] at external
        cases external
      | @hat scope root hat =>
        have place : scope.place = .child root scope.name := by rw [Scope.place, hat.parent]
        rw [hat.parent] at given
        rw [Profile.contents, Profile.scopes_mk, map_singleton, place] at outer
        refine ⟨placed.pending, placed.skipping, ?_, ?_⟩
        · rw [scopes]
          rfl
        · exact ParsedFile.holds_giveToParent structured.finished structured.distinct given held outer
    next inFile =>
      obtain ⟨unknown, rfl⟩ := finishProfile_eq_ok closed
      cases stacked with
      | root whole =>
        obtain ⟨filled, same⟩ := whole.foldl_ensureHat (hatsFor profile.scope.name)
        have grown := whole.holds_ensureHats outer (hatsFor profile.scope.name)
        refine ⟨placed.pending, placed.skipping, ?_, ?_⟩
        · rw [scopes]
          rfl
        · exact ParsedFile.holds_append structured.finished filled (by rw [same]; exact unknown) held grown
      | hat hat =>
        exact absurd hat.external inFile

theorem placed_place {rule : Rule} (placed : state.Placed outline statements)
    (success : { state with comments := [] }.place .profiles rule = .ok next) :
    next.Placed outline (statements ++ [(outline.place, rule)]) := by
  have here := placed.stack
  unfold ReaderState.place at success
  split at success
  next impossible => cases impossible
  next _ outside =>
    obtain ⟨preamble, added, rfl⟩ := map_eq_ok.mp success
    obtain ⟨kind, _, rfl⟩ := Preamble.add_eq_ok added
    simp only at outside
    rw [outside] at here
    obtain ⟨scopes, held⟩ := here
    refine ⟨placed.pending, placed.skipping, ?_⟩
    simp only [outside, Outline.place, scopes]
    exact ⟨rfl, held.add kind⟩
  next inner below _ inside =>
    obtain ⟨scope, added, rfl⟩ := map_eq_ok.mp success
    obtain ⟨kind, rfl⟩ := addToScope_eq_ok added
    simp only at inside
    rw [inside] at here
    rcases below with _ | ⟨outer, _ | _⟩
    · obtain ⟨scopes, before, own, rfl, held, outer⟩ := here
      have more := outer.add (inner.scope.kinds_place ▸ kind)
      refine ⟨placed.pending, placed.skipping, scopes, before, own ++ [_], ?_, held, more⟩
      rw [Outline.place, scopes, append_assoc]
      rfl
    · obtain ⟨scopes, before, own, last, rfl, held, outer, innermost⟩ := here
      have more := innermost.add kind
      refine ⟨placed.pending, placed.skipping, scopes, before, own, last ++ [_], ?_, held, outer, more⟩
      rw [Outline.place, scopes, append_assoc, append_assoc]
      rfl
    · cases here

theorem placed_skipLine (placed : state.Placed outline statements) (skips : outline.skipping ≠ 0) :
    (state.skipLine line).Placed (outline.after line) statements := by
  unfold ReaderState.skipLine Outline.after
  rw [if_pos skips, placed.skipping]
  repeat' split
  · exact placed
  · exact ⟨placed.pending, rfl, placed.stack⟩
  · exact ⟨placed.pending, rfl, placed.stack⟩
  · exact placed

/-- What a line states is put where the outline says, and what it opens and closes is what the
outline says. -/
theorem placed_stepAs {start : Nat} (structured : state.Structured) (placed : state.Placed outline statements)
    (stepped : stepAs .profiles hatsFor state line start = .ok next) :
    next.Placed (outline.after line) (statements ++ outline.stated line) := by
  have skipping := placed.skipping
  cases stepAs_eq_ok stepped with
  | skip skips =>
    rw [← skipping] at skips
    rw [Outline.stated, if_pos skips, append_nil]
    exact placed_skipLine placed skips
  | header reads form opened =>
    simp only [Outline.stated, Outline.after, if_neg (skipping ▸ reads), form, append_nil]
    exact placed_openProfile structured placed opened
  | hat reads form opened =>
    simp only [Outline.stated, Outline.after, if_neg (skipping ▸ reads), form, append_nil]
    exact placed_openHat structured placed opened
  | closing reads form closed =>
    simp only [Outline.stated, Outline.after, if_neg (skipping ▸ reads), form, append_nil]
    exact placed_close structured placed closed
  | conditional reads form =>
    simp only [Outline.stated, Outline.after, if_neg (skipping ▸ reads), form, append_nil]
    exact ⟨placed.pending, rfl, placed.stack⟩
  | changeHat reads form =>
    simp only [Outline.stated, Outline.after, if_neg (skipping ▸ reads), form, append_nil]
    exact placed
  | comment reads form =>
    simp only [Outline.stated, Outline.after, if_neg (skipping ▸ reads), form, append_nil, ReaderState.addComment]
    split
    · exact placed
    · exact ⟨placed.pending, placed.skipping, placed.stack⟩
  | statement reads form read stated =>
    simp only [Outline.stated, Outline.after, if_neg (skipping ▸ reads), form, read]
    exact placed_place placed stated
  | unfinished reads form unread =>
    simp only [Outline.stated, Outline.after, if_neg (skipping ▸ reads), form, unread, append_nil]
    exact ⟨rfl, placed.skipping, placed.stack⟩

theorem placed_plan {number : Nat} {lines : List (List Char)} {final : ReaderState}
    (structured : state.Structured) (placed : state.Placed outline statements)
    (ended : (plan .profiles hatsFor number lines state).result = .ok final) :
    ∃ last, final.Placed last (statements ++ outline.statements lines) := by
  induction lines generalizing number state outline statements with
  | nil =>
    cases ended
    rw [Outline.statements, append_nil]
    exact ⟨outline, placed⟩
  | cons line rest ih =>
    have whole : (joined state (trim line) number).1 = outline.joined (trim line) := by
      rw [joined, Outline.joined, placed.pending]
      cases state.pending <;> rfl
    simp only [plan, Outline.statements] at ended ⊢
    split at ended
    next blank =>
      rw [if_pos blank]
      exact ih structured placed ended
    next solid =>
      rw [if_neg solid]
      split at ended
      · cases ended
      next next stepped =>
        rw [whole] at stepped
        have cleared : ReaderState.Structured { state with pending := none } := { structured with }
        have here : ReaderState.Placed { state with pending := none } { outline with pending := none }
          statements := ⟨rfl, placed.skipping, placed.stack⟩
        have after := ih (structured_turn cleared (turn_of_stepAs stepped))
          (placed_stepAs cleared here stepped) ended
        rw [append_assoc] at after
        exact after

end Steps

/-! ## Texts -/

/-- The file has one ruleset of each kind in each place.  It lists the rules of that kind that are
stated there, in their order, and no others; each rule that is stated has its ruleset. -/
structure ParsedFile.Keeps (file : ParsedFile) (statements : List (Place × Rule)) : Prop where
  distinct : (file.contents.map Prod.fst).Nodup
  rules : ∀ entry ∈ file.contents, ∀ kind,
    (entry.2.ofKind kind).rules = (rulesAt entry.1 statements).filter fun rule => rule.kind == kind
  placed : ∀ statement ∈ statements,
    statement.1 ∈ file.contents.map Prod.fst ∧ statement.2.kind ∈ statement.1.kinds

theorem Holds.keeps {file : ParsedFile} {statements : List (Place × Rule)}
    (held : Holds file.contents statements) : file.Keeps statements := by
  refine ⟨held.distinct, fun entry member kind => ?_, held.placed⟩
  rw [Ruleset.ofKind, held.rules entry member]

/-- No statement of a text that is read is lost, repeated or put elsewhere, under any configuration
and whatever files it includes. -/
theorem Reading.text_keeps {files : FileSystem} {content filename : String}
    {session after : Session} {file : ParsedFile}
    (success : (Reading.text files content filename).outcome session = (.ok file, after)) :
    file.Keeps (statementsOf content) := by
  obtain ⟨state, _, planned, rfl⟩ := Include.text_eq_ok success
  obtain ⟨last, ended, finished⟩ := Checked.bind_eq_ok.mp planned
  obtain ⟨rfl, outside⟩ := Reader.finish_eq_ok finished
  have empty : Holds (ReaderState.parsed { filename }).contents [] := .opened .preamble
  have start : ReaderState.Placed { filename } {} [] := ⟨rfl, rfl, rfl, empty⟩
  obtain ⟨outline, placed⟩ := placed_plan (.initial filename) start ended
  have all := placed.stack
  rw [outside] at all
  exact all.2.keeps

/-- A profile with a hat inside and one behind it, a statement over two lines, one in a conditional
block, and a hat that the profile must have. -/
theorem Reading.text_keeps_hats :
    let config : Config := { requiredHats := [{ profileGlob := "/a", hats := ["r"] }] }
    let content := "$b = true\n/a \x7b\n capability chown,\n ^h \x7b\n  network\n   inet,\n \x7d\n" ++
      " if $b \x7b\n  network,\n \x7d\n capability kill,\n\x7d\n/a//e \x7b\n network,\n\x7d\n"
    (statementsOf content).map Prod.fst =
        [.preamble, .root "/a", .child "/a" "h", .root "/a", .child "/a" "e"] ∧
      ∃ file after, (Reading.text {} content "f").outcome { config } = (.ok file, after) ∧
        (file.contents.map fun entry => (entry.1, entry.2.size)) =
          [(.preamble, 1), (.root "/a", 2), (.child "/a" "e", 1), (.child "/a" "h", 1),
            (.child "/a" "r", 0)] ∧
        file.Keeps (statementsOf content) := by
  intro config content
  refine ⟨by decide +kernel, ?_⟩
  obtain ⟨file, after, result, sizes⟩ := Reading.exists_ok ((Reading.text {} content "f").outcome { config })
    (fun file => (file.contents.map fun entry => (entry.1, entry.2.size)) =
      [(.preamble, 1), (.root "/a", 2), (.child "/a" "e", 1), (.child "/a" "h", 1), (.child "/a" "r", 0)])
    (by decide +kernel)
  exact ⟨file, after, result, sizes, Reading.text_keeps result⟩

end ArmorPolicy
