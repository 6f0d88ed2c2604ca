import ArmorPolicy.Proofs.Include.Reached
import ArmorPolicy.Proofs.Include.Termination
import Mathlib.Logic.Relation

/-!
# Includes that come back to where they started

A file includes another one if its text states an include that names it, under any spelling.  A file
that leads to a cycle of includes is never remembered and never read with success, as the ranks of
the remembered files go down along every include.
-/

namespace ArmorPolicy.Include

open Reading Reader Relation

/-- An included text states the include.  What stands in a conditional block is not read. -/
def States (config : Config) (text : String) (inclusion : Inclusion) : Prop :=
  ∃ line, (line, inclusion) ∈ (planText .fragment config.hatsFor "" text).asked

def Includes (files : FileSystem) (config : Config) (place other : List String) : Prop :=
  ∃ text inclusion path, files.textIn? place = some text ∧ States config text inclusion ∧
    path ∈ inclusion.fullPaths files config.profileDir ∧
    files.placeOf? (files.includeName path) = some other

/-- From the file of this name a cycle of includes can be reached. -/
def LeadsToCycle (files : FileSystem) (config : Config) (name : List String) : Prop :=
  ∃ place other, files.placeOf? name = some place ∧ ReflTransGen (Includes files config) place other ∧
    TransGen (Includes files config) other other

variable {files : FileSystem} {config : Config} {session : Session} {memo : Memo}
  {name place other : List String} {fragment : Fragment} {rank : List String → Nat}

/-! ## Ranks -/

theorem mem_requests {asked : List (Nat × Inclusion)} {line : Nat} {path : String} {inclusion : Inclusion}
    (resolves : config.resolveIncludes) (states : (line, inclusion) ∈ asked)
    (named : path ∈ inclusion.fullPaths files config.profileDir) :
    (line, path) ∈ requests (wanted files config) asked := by
  refine List.mem_flatMap.mpr ⟨(line, inclusion), states, List.mem_map.mpr ⟨path, ?_, rfl⟩⟩
  rwa [wanted, if_pos resolves]

theorem mem_requestsOf {text path : String} {inclusion : Inclusion}
    (resolves : config.resolveIncludes) (states : States config text inclusion)
    (named : path ∈ inclusion.fullPaths files config.profileDir) :
    ∃ line, (line, path) ∈ requestsOf files config text := by
  obtain ⟨line, stated⟩ := states
  exact ⟨line, mem_requests resolves stated named⟩

theorem Ranked.exists_lower (resolves : config.resolveIncludes)
    (ranked : Ranked files config memo rank) (known : memo.get? name = some fragment)
    (placed : files.placeOf? name = some place) (includes : Includes files config place other) :
    ∃ next entry, memo.get? next = some entry ∧ files.placeOf? next = some other ∧ rank next < rank name := by
  obtain ⟨_, text, source, _, below⟩ := ranked name fragment known
  obtain ⟨again, inclusion, path, found, states, named, leads⟩ := includes
  rw [FileSystem.textOf?, placed, Option.bind_some] at source
  obtain rfl : text = again := Option.some.inj (source.symm.trans found)
  obtain ⟨line, asked⟩ := mem_requestsOf resolves states named
  obtain ⟨isKnown, lower⟩ := below (line, path) asked
  obtain ⟨entry, remembered⟩ := Option.isSome_iff_exists.mp isKnown
  exact ⟨files.includeName path, entry, remembered, leads, lower⟩

theorem Ranked.exists_lower_of_transGen (resolves : config.resolveIncludes)
    (ranked : Ranked files config memo rank) (known : memo.get? name = some fragment)
    (placed : files.placeOf? name = some place) (way : TransGen (Includes files config) place other) :
    ∃ next entry, memo.get? next = some entry ∧ files.placeOf? next = some other ∧ rank next < rank name := by
  induction way with
  | single includes => exact ranked.exists_lower resolves known placed includes
  | tail _ includes ih =>
    obtain ⟨middle, entry, middleKnown, middlePlaced, lower⟩ := ih
    obtain ⟨next, nextEntry, nextKnown, nextPlaced, lowest⟩ :=
      ranked.exists_lower resolves middleKnown middlePlaced includes
    exact ⟨next, nextEntry, nextKnown, nextPlaced, by omega⟩

/-- A cycle would lead from a remembered name to another one at the same place, of lower and lower
rank. -/
theorem Ranked.not_transGen_self (resolves : config.resolveIncludes)
    (ranked : Ranked files config memo rank) (known : memo.get? name = some fragment)
    (placed : files.placeOf? name = some place) : ¬TransGen (Includes files config) place place := by
  induction bound : rank name using Nat.strongRecOn generalizing name fragment with
  | ind bound ih =>
    intro cycle
    obtain ⟨next, entry, nextKnown, nextPlaced, lower⟩ :=
      ranked.exists_lower_of_transGen resolves known placed cycle
    exact ih (rank next) (by omega) nextKnown nextPlaced rfl cycle

theorem Valid.not_leadsToCycle (resolves : config.resolveIncludes)
    (valid : Valid files config memo) (known : memo.get? name = some fragment) :
    ¬LeadsToCycle files config name := by
  obtain ⟨rank, _, _, ranked⟩ := valid
  rintro ⟨place, other, placed, way, cycle⟩
  rcases reflTransGen_iff_eq_or_transGen.mp way with rfl | further
  · exact ranked.not_transGen_self resolves known placed cycle
  · obtain ⟨next, entry, nextKnown, nextPlaced, _⟩ :=
      ranked.exists_lower_of_transGen resolves known placed further
    exact ranked.not_transGen_self resolves nextKnown nextPlaced cycle

/-! ## Readings -/

theorem known_of_read (sound : session.Sound files config) {path : String}
    (success : ((read files path).outcome session).1 = .ok fragment) :
    ((read files path).outcome session).2.memo.get? (files.includeName path) = some fragment := by
  obtain ⟨_, outcome⟩ := follows_readWithin files (files.size + 2) path session sound.configured sound.idle
  rw [read, outcome] at success ⊢
  exact known_of_load (Prod.ext success rfl)

/-- No include is followed: a text gives what it states by itself, and so does a file, which is the only
one that can get remembered. -/
structure Unfollowed (files : FileSystem) (session : Session) : Prop where
  text : ∀ content filename, ((text files content filename).outcome session).1 =
      (planText .profiles session.config.hatsFor filename content).result.map ReaderState.parsed ∧
    ((text files content filename).outcome session).2.memo = session.memo
  file : ∀ path source, session.memo.get? (files.includeName path) = none →
    files.includeName path ∉ session.inProgress → files.isFile (files.includeKey path) = true →
    files.readText (files.includeKey path) = .ok source →
    ((read files path).outcome session).1 = given session.config (files.includeKey path) source ∧
      ∀ other, other ≠ files.includeName path →
        ((read files path).outcome session).2.memo.get? other = session.memo.get? other

theorem unfollowed (unresolved : session.config.resolveIncludes = false) : Unfollowed files session where
  text content filename := by
    obtain ⟨_, outcome⟩ := follows_text files content filename session rfl rfl
    rw [outcome, loadText_unresolved unresolved]
    exact ⟨rfl, rfl⟩
  file path source unknown outside file text := by
    obtain ⟨_, outcome⟩ := follows_readWithin files (files.size + 2) path session rfl rfl
    rw [load_file unknown outside file, text] at outcome
    rw [read, outcome]
    simp only [Loading.bind, Loading.ofChecked, requestsOf, requests_unresolved unresolved, answer]
    cases given session.config (files.includeKey path) source with
    | error error => exact ⟨rfl, fun _ _ => rfl⟩
    | ok fragment =>
      refine ⟨rfl, fun other differs => ?_⟩
      exact (SortedMap.get?_insert ..).trans (if_neg (by simpa using differs))

/-- Reading includes comes to an end and restores what was in progress, in every session.  If includes
are resolved, no file that leads to a cycle is remembered or read with success; otherwise none is
followed. -/
theorem reading_ends (files : FileSystem) (session : Session) :
    (∀ stop depth, files.size + 2 ≤ depth →
      (∀ path, EndsAs session (readUpTo files stop depth path) (read files path)) ∧
        ∀ content filename, EndsAs session (textUpTo files stop depth content filename)
          (text files content filename)) ∧
    (∀ path, ((read files path).outcome session).2.inProgress = session.inProgress) ∧ (∀ content filename,
      ((text files content filename).outcome session).2.inProgress = session.inProgress) ∧
    (∀ config, config.resolveIncludes = true → session.Reached files config →
      (∀ name fragment, session.memo.get? name = some fragment → ¬LeadsToCycle files config name) ∧
        ∀ path fragment, ((read files path).outcome session).1 = .ok fragment →
          ¬LeadsToCycle files config (files.includeName path)) ∧
    (session.config.resolveIncludes = false → Unfollowed files session) := by
  refine ⟨fun stop depth enoughDepth => ⟨fun path => ?_, fun content filename => ?_⟩, fun path => ?_,
    fun content filename => ?_, fun config resolves reached => ⟨fun name fragment known => ?_,
    fun path fragment success => ?_⟩, unfollowed⟩
  · exact .of_follows (follows_readUpTo_enough enoughDepth path) (follows_readWithin files _ path)
  · exact .of_follows (follows_textUpTo enoughDepth content filename) (follows_text files content filename)
  · exact inProgress_of_follows (follows_readWithin files _ path)
  · exact inProgress_of_follows (follows_text files content filename)
  · exact reached.sound.valid.not_leadsToCycle resolves known
  · have later := keeps_read path session reached.sound
    exact later.sound.valid.not_leadsToCycle resolves (known_of_read reached.sound success)

def chained : FileSystem :=
  (FileSystem.write {} ["x"] (.file "include \"/y\"\n".toUTF8)).write ["y"] (.file "/a r,\n".toUTF8)

theorem reading_ends_chained :
    Session.Reached chained {} ((read chained "/x").outcome {}).2 ∧
      (∃ fragment, ((read chained "/x").outcome {}).2.memo.get? ["x"] = some fragment) ∧
      ¬LeadsToCycle chained {} ["x"] ∧
      EndsAs {} (readUpTo chained (fun _ => refuse .strayEnd) 4 "/x") (read chained "/x") := by
  have reached : Session.Reached chained {} ((read chained "/x").outcome {}).2 := .included "/x" .new
  have remembered : (((read chained "/x").outcome {}).2.memo.get? ["x"]).isSome = true := by
    decide +kernel
  obtain ⟨fragment, known⟩ := Option.isSome_iff_exists.mp remembered
  have ends := (reading_ends chained {}).1 (fun _ => refuse .strayEnd) 4 (by decide +kernel)
  exact ⟨reached, ⟨fragment, known⟩,
    ((reading_ends chained _).2.2.2.1 {} rfl reached).1 ["x"] fragment known, ends.1 "/x"⟩

def selfIncluding : FileSystem := loneFile "include \"/x\"\n"

/-- A file that includes itself is read with success, and remembered, when includes are not resolved. -/
theorem cycle_read_unresolved :
    ((read selfIncluding "/x").outcome .unresolved).2.Reached selfIncluding { resolveIncludes := false } ∧
      (∃ fragment, ((read selfIncluding "/x").outcome .unresolved).1 = .ok fragment ∧
        ((read selfIncluding "/x").outcome .unresolved).2.memo.get? (selfIncluding.includeName "/x") =
          some fragment) ∧
      LeadsToCycle selfIncluding { resolveIncludes := false } (selfIncluding.includeName "/x") := by
  have states : States { resolveIncludes := false } "include \"/x\"\n" ⟨"/x", false, false⟩ :=
    ⟨1, by decide +kernel⟩
  have itself : Includes selfIncluding { resolveIncludes := false } ["x"] ["x"] :=
    ⟨"include \"/x\"\n", ⟨"/x", false, false⟩, "/x", by decide +kernel, states, by decide +kernel,
      by decide +kernel⟩
  obtain ⟨fragment, _, result, _⟩ := exists_ok ((read selfIncluding "/x").outcome .unresolved) (fun _ => True)
    (by decide +kernel)
  have accepted : ((read selfIncluding "/x").outcome .unresolved).1 = .ok fragment := by rw [result]
  have fresh : Session.unresolved.Reached selfIncluding { resolveIncludes := false } := .new
  exact ⟨.included "/x" fresh, ⟨fragment, accepted, known_of_read fresh.sound accepted⟩, ["x"], ["x"],
    by decide +kernel, .refl, .single itself⟩

end ArmorPolicy.Include
