import ArmorPolicy.Proofs.Include.Cycle
import Mathlib.Data.List.Nodup
import Mathlib.Data.List.Perm.Subperm

/-!
# What includes lead to

Following includes through the files that are known goes to each file once and misses none.  The list
of visited files is shared between all branches of the walk: what a branch leaves open is only what was
visited before it, so that nothing is open at the end.
-/

namespace ArmorPolicy

open List Include Reader Relation

variable {files : FileSystem} {config : Config} {session : Session}

theorem Include.states_of_given {key text : String} {fragment : Fragment} {inclusion : Inclusion}
    (gives : given config key text = .ok fragment) (member : inclusion ∈ fragment.rules.inclusions) :
    States config text inclusion := by
  obtain ⟨state, ended, rfl⟩ := Checked.map_eq_ok.mp gives
  rw [States, asked_planText "" key]
  exact (stated_planText ended).rules inclusion member

namespace Session

/-- The paths that come up when includes are followed: those that the includes name, and those that a
known file on the way names. -/
inductive Meets (session : Session) (files : FileSystem) (inclusions : List Inclusion) : String → Prop
  | stated {inclusion : Inclusion} {path : String} (member : inclusion ∈ inclusions)
      (named : path ∈ inclusion.fullPaths files session.config.profileDir) :
      Meets session files inclusions path
  | further {before path : String} {fragment : Fragment} {inclusion : Inclusion}
      (met : Meets session files inclusions before)
      (found : session.included? files before = some fragment)
      (member : inclusion ∈ fragment.rules.inclusions)
      (named : path ∈ inclusion.fullPaths files session.config.profileDir) :
      Meets session files inclusions path

/-! ## The walk -/

def Successor (session : Session) (files : FileSystem) (name next : List String) : Prop :=
  ∃ fragment, session.memo.get? name = some fragment ∧
    next ∈ session.targets files fragment.rules.inclusions ∧ (session.memo.get? next).isSome = true

/-- The result of a walk to the given names, when some names have been visited before. -/
structure Walked (session : Session) (files : FileSystem) (visited names result : List (List String)) :
    Prop where
  grows : visited <+: result
  distinct : result.Nodup
  known : ∀ name ∈ result, (session.memo.get? name).isSome = true
  complete : ∀ name ∈ names, (session.memo.get? name).isSome = true → name ∈ result
  /-- What was visited before may still be open. -/
  closed : ∀ name ∈ result, name ∉ visited → ∀ next, session.Successor files name next → next ∈ result
  only : ∀ name ∈ result, name ∉ visited → ∃ start ∈ names, ReflTransGen (session.Successor files) start name

variable {visited middle names result : List (List String)} {name : List String} {depth : Nat}

theorem mem_visited_of_size_le (distinct : visited.Nodup)
    (known : ∀ name ∈ visited, (session.memo.get? name).isSome)
    (enough : session.memo.size ≤ visited.length) (isKnown : (session.memo.get? name).isSome) :
    name ∈ visited := by
  have isKey : ∀ other, (session.memo.get? other).isSome → other ∈ session.memo.entries.map Prod.fst := by
    intro other found
    obtain ⟨entry, member, same⟩ := lookup_isSome_iff.mp found
    exact mem_map.mpr ⟨entry, member, (eq_of_beq same).symm⟩
  have within : visited.Subperm (session.memo.entries.map Prod.fst) :=
    subperm_of_subset distinct fun other member => isKey other (known other member)
  have all : visited.Perm (session.memo.entries.map Prod.fst) :=
    within.perm_of_length_le (by rwa [length_map])
  exact all.mem_iff.mpr (isKey name isKnown)

theorem walked_self (distinct : visited.Nodup) (known : ∀ name ∈ visited, (session.memo.get? name).isSome)
    (done : ∀ name ∈ names, (session.memo.get? name).isSome → name ∈ visited) :
    Walked session files visited names visited where
  grows := prefix_rfl
  distinct := distinct
  known := known
  complete := done
  closed _ inside outside := absurd inside outside
  only _ inside outside := absurd inside outside

theorem Walked.cons (first : Walked session files visited [name] middle)
    (second : Walked session files middle names result) :
    Walked session files visited (name :: names) result where
  grows := first.grows.trans second.grows
  distinct := second.distinct
  known := second.known
  complete := by
    intro other member isKnown
    rcases mem_cons.mp member with rfl | later
    · exact second.grows.subset (first.complete other (.head _) isKnown)
    · exact second.complete other later isKnown
  closed := by
    intro other member outside next successor
    by_cases before : other ∈ middle
    · exact second.grows.subset (first.closed other before outside next successor)
    · exact second.closed other member before next successor
  only := by
    intro other member outside
    by_cases before : other ∈ middle
    · obtain ⟨start, isFirst, way⟩ := first.only other before outside
      exact ⟨start, mem_cons.mpr (.inl (mem_singleton.mp isFirst)), way⟩
    · obtain ⟨start, later, way⟩ := second.only other member before
      exact ⟨start, .tail _ later, way⟩

theorem Walked.enter {fragment : Fragment} (found : session.memo.get? name = some fragment)
    (inner : Walked session files (visited ++ [name]) (session.targets files fragment.rules.inclusions)
      result) : Walked session files visited [name] result where
  grows := (prefix_append visited [name]).trans inner.grows
  distinct := inner.distinct
  known := inner.known
  complete := by
    intro other member _
    rw [mem_singleton.mp member]
    exact inner.grows.subset (by simp)
  closed := by
    intro other member outside next successor
    by_cases same : other = name
    · obtain ⟨entry, entryFound, target, isKnown⟩ := successor
      rw [same, found] at entryFound
      obtain rfl : fragment = entry := Option.some.inj entryFound
      exact inner.complete next target isKnown
    · exact inner.closed other member (by simp [outside, same]) next successor
  only := by
    intro other member outside
    refine ⟨name, .head _, ?_⟩
    by_cases same : other = name
    · rw [same]
    · obtain ⟨start, target, way⟩ := inner.only other member (by simp [outside, same])
      have startKnown : (session.memo.get? start).isSome := by
        rcases ReflTransGen.cases_head way with rfl | ⟨_, ⟨entry, startFound, _⟩, _⟩
        · exact inner.known start member
        · rw [startFound]
          rfl
      exact .head ⟨fragment, found, target, startKnown⟩ way

def visitOne (session : Session) (files : FileSystem) (depth : Nat) (visited : List (List String))
    (name : List String) : List (List String) :=
  match session.memo.get? name with
  | none => visited
  | some fragment =>
    if visited.contains name then visited
    else session.visit files depth (visited ++ [name]) (session.targets files fragment.rules.inclusions)

theorem visit_succ : session.visit files (depth + 1) visited names =
    names.foldl (session.visitOne files depth) visited := rfl

theorem walked_visitOne (distinct : visited.Nodup) (known : ∀ name ∈ visited, (session.memo.get? name).isSome)
    (deeper : name ∉ visited → (session.memo.get? name).isSome → ∀ names,
      Walked session files (visited ++ [name]) names (session.visit files depth (visited ++ [name]) names)) :
    Walked session files visited [name] (session.visitOne files depth visited name) := by
  unfold visitOne
  split
  next unknown =>
    refine walked_self distinct known fun other member isKnown => ?_
    rw [mem_singleton.mp member, unknown] at isKnown
    cases isKnown
  next fragment found =>
    split
    next inside =>
      refine walked_self distinct known fun other member _ => ?_
      rw [mem_singleton.mp member]
      exact contains_iff_mem.mp inside
    next outside =>
      have fresh : name ∉ visited := fun inside => outside (contains_iff_mem.mpr inside)
      exact .enter found (deeper fresh (by rw [found]; rfl) _)

theorem walked_visit (distinct : visited.Nodup) (known : ∀ name ∈ visited, (session.memo.get? name).isSome)
    (enough : session.memo.size ≤ depth + visited.length) :
    Walked session files visited names (session.visit files depth visited names) := by
  induction depth generalizing visited names with
  | zero =>
    refine walked_self distinct known fun name _ isKnown => ?_
    exact mem_visited_of_size_le distinct known (by omega) isKnown
  | succ depth ih =>
    rw [visit_succ]
    induction names generalizing visited with
    | nil => exact walked_self distinct known nofun
    | cons name names ihNames =>
      have first : Walked session files visited [name] (session.visitOne files depth visited name) := by
        refine walked_visitOne distinct known fun fresh isKnown names => ih ?_ ?_ ?_
        · rw [(perm_append_singleton name visited).nodup_iff, nodup_cons]
          exact ⟨fresh, distinct⟩
        · rw [forall_mem_append, forall_mem_singleton]
          exact ⟨known, isKnown⟩
        · rw [length_append, length_singleton]
          omega
      have longer := first.grows.length_le
      rw [foldl_cons]
      exact first.cons (ihNames first.distinct first.known (by omega))

/-! ## Met paths -/

section Met

variable {inclusions : List Inclusion} {fragment : Fragment}

theorem mem_targets : name ∈ session.targets files inclusions ↔
    ∃ inclusion ∈ inclusions, ∃ path ∈ inclusion.fullPaths files session.config.profileDir,
      files.includeName path = name := by
  rw [targets, mem_map]
  constructor
  · rintro ⟨path, among, rfl⟩
    obtain ⟨inclusion, member, named⟩ := mem_flatMap.mp among
    exact ⟨inclusion, member, path, named, rfl⟩
  · rintro ⟨inclusion, member, path, named, rfl⟩
    exact ⟨path, mem_flatMap.mpr ⟨inclusion, member, named⟩, rfl⟩

theorem walked_targets (session : Session) (files : FileSystem) (inclusions : List Inclusion) :
    Walked session files [] (session.targets files inclusions)
      (session.visit files session.memo.size [] (session.targets files inclusions)) :=
  walked_visit nodup_nil nofun (Nat.le_add_right _ _)

theorem exists_meets_of_way {start : List String} (target : start ∈ session.targets files inclusions)
    (way : ReflTransGen (session.Successor files) start name) :
    ∃ path, session.Meets files inclusions path ∧ files.includeName path = name := by
  induction way with
  | refl =>
    obtain ⟨inclusion, member, path, named, same⟩ := mem_targets.mp target
    exact ⟨path, .stated member named, same⟩
  | tail _ successor ih =>
    obtain ⟨before, met, rfl⟩ := ih
    obtain ⟨fragment, found, further, _⟩ := successor
    obtain ⟨inclusion, member, path, named, same⟩ := mem_targets.mp further
    exact ⟨path, .further met found member named, same⟩

theorem Meets.mem_visit {path : String} (met : session.Meets files inclusions path)
    (known : (session.included? files path).isSome) :
    files.includeName path ∈ session.visit files session.memo.size [] (session.targets files inclusions) := by
  have walked := walked_targets session files inclusions
  induction met with
  | stated member named =>
    exact walked.complete _ (mem_targets.mpr ⟨_, member, _, named, rfl⟩) known
  | further before found member named ih =>
    refine walked.closed _ (ih (by rw [found]; rfl)) (by simp) _ ⟨_, found, ?_, known⟩
    exact mem_targets.mpr ⟨_, member, _, named, rfl⟩

theorem mem_reached : fragment ∈ session.reached files inclusions ↔
    ∃ path, session.Meets files inclusions path ∧ session.included? files path = some fragment := by
  rw [reached, mem_filterMap]
  constructor
  · rintro ⟨name, visited, found⟩
    obtain ⟨start, target, way⟩ := (walked_targets session files inclusions).only name visited (by simp)
    obtain ⟨path, met, rfl⟩ := exists_meets_of_way target way
    exact ⟨path, met, found⟩
  · rintro ⟨path, met, found⟩
    exact ⟨files.includeName path, met.mem_visit (by rw [found]; rfl), found⟩

theorem mem_includedFiles {filename : String} : filename ∈ session.includedFiles files inclusions ↔
    ∃ path fragment, session.Meets files inclusions path ∧
      session.included? files path = some fragment ∧ fragment.filename = filename := by
  rw [includedFiles, mem_map]
  constructor
  · rintro ⟨fragment, member, named⟩
    obtain ⟨path, met, found⟩ := mem_reached.mp member
    exact ⟨path, fragment, met, found, named⟩
  · rintro ⟨path, fragment, met, found, named⟩
    exact ⟨fragment, mem_reached.mpr ⟨path, met, found⟩, named⟩

theorem Sound.spelled (sound : session.Sound files config) (found : session.memo.get? name = some fragment) :
    Path.components fragment.filename = name := by
  obtain ⟨_, _, _, ranked⟩ := sound.valid
  exact (ranked name fragment found).spelled

theorem Sound.known_of_mem_reached (sound : session.Sound files config)
    (member : fragment ∈ session.reached files inclusions) :
    session.memo.get? (Path.components fragment.filename) = some fragment := by
  obtain ⟨name, _, found⟩ := mem_filterMap.mp member
  rwa [sound.spelled found]

theorem Sound.nodup_includedFiles (sound : session.Sound files config) (inclusions : List Inclusion) :
    (session.includedFiles files inclusions).Nodup := by
  have walked := walked_targets session files inclusions
  have names : ∀ names : List (List String), (∀ name ∈ names, (session.memo.get? name).isSome) →
      ((names.filterMap fun name => session.memo.get? name).map Fragment.filename).map Path.components =
        names := by
    intro names known
    induction names with
    | nil => rfl
    | cons name names ih =>
      rw [forall_mem_cons] at known
      obtain ⟨fragment, found⟩ := Option.isSome_iff_exists.mp known.1
      rw [filterMap_cons_some found, map_cons, map_cons, sound.spelled found, ih known.2]
  refine List.Nodup.of_map Path.components ?_
  rw [includedFiles, reached, names _ walked.known]
  exact walked.distinct

end Met

/-! ## Later sessions -/

/-- One more reading is made in a session, whether it succeeds or fails. -/
inductive Step (files : FileSystem) : Session → Session → Prop
  | text (session : Session) (content filename : String) :
      Step files session ((Reading.text files content filename).outcome session).2
  | file (session : Session) (path : String) :
      Step files session ((Reading.file files path).outcome session).2
  | included (session : Session) (path : String) :
      Step files session ((Include.read files path).outcome session).2
  | directory (session : Session) (path : String) :
      Step files session ((Reading.directory files path).outcome session).2

/-- The file was read with success from a text, in this session or before it. -/
def Accepted (files : FileSystem) (config : Config) (session : Session) (file : ParsedFile) : Prop :=
  ∃ earlier content filename after, earlier.Reached files config ∧
    (Reading.text files content filename).outcome earlier = (.ok file, after) ∧
    ReflTransGen (Step files) after session

theorem Sound.continues_of_step {after : Session} (sound : session.Sound files config)
    (step : Step files session after) : Continues files config session after := by
  cases step with
  | text content filename => exact Reading.keeps_text content filename session sound
  | file path => exact Reading.keeps_file path session sound
  | included path => exact Reading.keeps_read path session sound
  | directory path => exact Reading.keeps_directory path session sound

theorem Sound.continues {after : Session} (sound : session.Sound files config)
    (later : ReflTransGen (Step files) session after) : Continues files config session after := by
  induction later with
  | refl => exact ⟨sound, .refl [] session.memo⟩
  | tail _ step ih =>
    have last := ih.sound.continues_of_step step
    exact ⟨last.sound, ih.grows.trans last.grows⟩

section Known

variable {inclusion : Inclusion} {fragment : Fragment} {path : String}

theorem lower_of_included {before : String} {rank : List String → Nat}
    (resolves : config.resolveIncludes) (ranked : Ranked files config session.memo rank)
    (found : session.included? files before = some fragment)
    (member : inclusion ∈ fragment.rules.inclusions)
    (named : path ∈ inclusion.fullPaths files config.profileDir) :
    (session.included? files path).isSome ∧
      rank (files.includeName path) < rank (files.includeName before) := by
  obtain ⟨_, text, _, gives, below⟩ := ranked (files.includeName before) fragment found
  obtain ⟨line, asked⟩ := mem_requestsOf resolves (states_of_given gives member) named
  exact below (line, path) asked

theorem known_of_text {content filename : String} {file : ParsedFile} {ruleset : Ruleset} {after : Session}
    (resolves : config.resolveIncludes) (sound : session.Sound files config)
    (success : (Reading.text files content filename).outcome session = (.ok file, after))
    (belongs : ruleset ∈ file.rulesets) (member : inclusion ∈ ruleset.inclusions)
    (named : path ∈ inclusion.fullPaths files config.profileDir) :
    (after.included? files path).isSome := by
  obtain ⟨state, answered, ended, rfl⟩ := text_eq_ok success
  rw [sound.configured] at answered ended
  obtain ⟨line, asked⟩ := (stated_planText ended).parsed ruleset belongs inclusion member
  exact known_of_answer answered (line, path) (mem_requests resolves asked named)

theorem Accepted.known_of_meets {file : ParsedFile} {ruleset : Ruleset}
    (accepted : session.Accepted files config file) (resolves : config.resolveIncludes)
    (belongs : ruleset ∈ file.rulesets) (met : session.Meets files ruleset.inclusions path) :
    (session.included? files path).isSome := by
  obtain ⟨earlier, content, filename, after, reached, success, later⟩ := accepted
  have reading := Reading.keeps_text content filename earlier reached.sound
  rw [success] at reading
  have continues := reading.sound.continues later
  have configured := continues.sound.configured
  cases met with
  | stated member named =>
    rw [configured] at named
    exact continues.grows.isSome (known_of_text resolves reached.sound success belongs member named)
  | further _ found member named =>
    rw [configured] at named
    obtain ⟨_, _, _, ranked⟩ := continues.sound.valid
    exact (lower_of_included resolves ranked found member named).1

end Known

/-! ## Exactness -/

/-- In every session that readings lead to, the included files are exactly the known ones at the paths
that are met, each of them once; and the included rules are the rules of these files, kind by kind and in
the same order.  If the includes stem from a text that was accepted, and includes are resolved, no path
that is met is unknown. -/
theorem includedFiles_exact (reached : session.Reached files config) (inclusions : List Inclusion) :
    (session.includedFiles files inclusions).Nodup ∧
    (∀ filename, filename ∈ session.includedFiles files inclusions ↔
      ∃ path fragment, session.Meets files inclusions path ∧
        session.included? files path = some fragment ∧ fragment.filename = filename) ∧
    (∃ fragments : List Fragment,
      session.includedFiles files inclusions = fragments.map Fragment.filename ∧ (∀ fragment ∈ fragments,
        session.memo.get? (Path.components fragment.filename) = some fragment) ∧
      ∀ kind, ((session.includedRules files inclusions).ofKind kind).rules =
        fragments.flatMap fun fragment => (fragment.rules.ofKind kind).rules) ∧
    ∀ file ruleset, config.resolveIncludes = true → session.Accepted files config file →
      ruleset ∈ file.rulesets → ruleset.inclusions = inclusions →
        ∀ path, session.Meets files inclusions path → (session.included? files path).isSome = true := by
  have sound := reached.sound
  refine ⟨sound.nodup_includedFiles inclusions, fun filename => mem_includedFiles,
    ⟨session.reached files inclusions, rfl, fun fragment => sound.known_of_mem_reached, fun kind => ?_⟩, ?_⟩
  · rw [Ruleset.ofKind, includedRules, List.filter_flatMap]
    rfl
  · rintro file ruleset resolves accepted belongs rfl path met
    exact accepted.known_of_meets resolves belongs met

/-- A profile includes two files, and the first of them includes the second. -/
theorem includedFiles_exact_shared :
    let content := "/p \x7b\n include \"/x\"\n include \"/y\"\n\x7d\n"
    let inclusions : List Inclusion := [⟨"/x", false, false⟩, ⟨"/y", false, false⟩]
    ∃ file after, (Reading.text Include.chained content "f").outcome {} = (.ok file, after) ∧
      after.Reached Include.chained {} ∧ after.Accepted Include.chained {} file ∧
      (∃ ruleset ∈ file.rulesets, ruleset.inclusions = inclusions) ∧
      after.includedFiles Include.chained inclusions = ["/x", "/y"] ∧
      (after.includedFiles Include.chained inclusions).Nodup ∧
      ∀ path, after.Meets Include.chained inclusions path →
        (after.included? Include.chained path).isSome = true := by
  intro content inclusions
  have reached : Reached Include.chained {} ((Reading.text Include.chained content "f").outcome {}).2 :=
    .text content "f" .new
  have listed : ((Reading.text Include.chained content "f").outcome {}).2.includedFiles Include.chained
      inclusions = ["/x", "/y"] := by decide +kernel
  obtain ⟨file, after, result, ruleset, member, same⟩ := Reading.exists_ok
    ((Reading.text Include.chained content "f").outcome {})
    (fun file => ∃ ruleset ∈ file.rulesets, ruleset.inclusions = inclusions) (by decide +kernel)
  rw [result] at reached listed
  have accepted : after.Accepted Include.chained {} file := ⟨{}, content, "f", after, .new, result, .refl⟩
  have listing := includedFiles_exact reached inclusions
  exact ⟨file, after, result, reached, accepted, ⟨ruleset, member, same⟩, listed, listing.1,
    listing.2.2.2 file ruleset rfl accepted member same⟩

end Session

end ArmorPolicy
