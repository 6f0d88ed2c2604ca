import ArmorPolicy.Proofs.Include.Reached
import ArmorPolicy.Proofs.Registry.Admission

/-!
# The registry as an index

The registry answers from three maps and from the lists of profiles inside of one of them.  After any
calls, whether they succeed or fail, these agree: a profile is listed for the file in which its name is
found, no list has a profile twice, and an attachment leads to the file of its profile, whatever other
attachments match it.
-/

namespace ArmorPolicy

open List SortedMap

variable {file : SourceFile} {filename name : String}

def SourceFile.listing (name : String) (file : SourceFile) : SourceFile :=
  if file.profiles.contains name then file else { file with profiles := file.profiles ++ [name] }

namespace SourceFile

theorem mem_profiles_listing {other : String} :
    other ∈ (file.listing name).profiles ↔ other ∈ file.profiles ∨ other = name := by
  unfold listing
  split
  next known =>
    constructor
    · exact .inl
    · rintro (member | rfl)
      · exact member
      · exact contains_iff_mem.mp known
  · simp

theorem nodup_profiles_listing (distinct : file.profiles.Nodup) : (file.listing name).profiles.Nodup := by
  unfold listing
  split
  · exact distinct
  next unknown =>
    refine nodup_append.mpr ⟨distinct, pairwise_singleton _ name, ?_⟩
    rintro other member last inside rfl
    rw [mem_singleton] at inside
    exact unknown (contains_iff_mem.mpr (inside ▸ member))

end SourceFile

namespace Registry

variable {registry : Registry} {entry : Registration} {entries : List Registration}

/-! ## Lookups behind a registration -/

theorem get?_names_put (name : String) :
    (registry.put entry).names.get? name =
      if name = entry.name then some entry.filename else registry.names.get? name := by
  refine (get?_insert (m := registry.names)).trans ?_
  simp only [beq_iff_eq]

theorem get?_attachments_put (key : String) :
    (registry.put entry).attachments.get? key =
      if entry.key? = some key then some (entry.filename, ⟨key, none⟩)
      else registry.attachments.get? key := by
  unfold put insertProfile Registration.candidate
  cases entry.key? with
  | none => rfl
  | some mine =>
    refine (get?_insert (m := registry.attachments)).trans ?_
    by_cases same : key = mine
    · simp [same]
    · simp [same, Ne.symm same]

theorem get?_files_put (filename : String) :
    (registry.put entry).files.get? filename =
      if filename = entry.filename then (registry.files.get? filename).map (·.listing entry.name)
      else registry.files.get? filename := by
  unfold put insertProfile
  cases found : registry.files.get? entry.filename with
  | none =>
    dsimp only
    split
    next same => rw [same, found, Option.map_none]
    · rfl
  | some file =>
    dsimp only
    by_cases known : file.profiles.contains entry.name
    · rw [if_pos known]
      split
      next same => rw [same, found, Option.map_some, SourceFile.listing, if_pos known]
      · rfl
    · rw [if_neg known, get?_insert]
      simp only [beq_iff_eq]
      split
      next same => rw [same, found, Option.map_some, SourceFile.listing, if_neg known]
      · rfl

theorem names_contains_put :
    (registry.put entry).names.contains name ↔ registry.names.contains name ∨ entry.name = name := by
  rw [SortedMap.contains, get?_names_put, SortedMap.contains]
  split
  next same => simp [same]
  next different => simp [Ne.symm different]

theorem attachments_contains_put {key : String} :
    (registry.put entry).attachments.contains key ↔
      registry.attachments.contains key ∨ entry.key? = some key := by
  rw [SortedMap.contains, get?_attachments_put, SortedMap.contains]
  split
  next same => simp [same]
  next different => simp [different]

theorem files_contains_put :
    (registry.put entry).files.contains filename = registry.files.contains filename := by
  rw [SortedMap.contains, get?_files_put, SortedMap.contains]
  split
  · rw [Option.isSome_map]
  · rfl

/-- Behind a profile, the registry clashes with what it clashed with and with what clashes with the
profile. -/
theorem clashes_put {other : Registration} :
    (registry.put entry).Clashes other ↔ registry.Clashes other ∨ entry.Clashes other := by
  unfold Clashes Registration.Clashes
  simp only [names_contains_put, attachments_contains_put]
  constructor
  · rintro ((known | same) | ⟨key, theirs, known | mine⟩)
    · exact .inl (.inl known)
    · exact .inr (.inl same)
    · exact .inl (.inr ⟨key, theirs, known⟩)
    · exact .inr (.inr ⟨key, mine, theirs⟩)
  · rintro ((known | ⟨key, theirs, known⟩) | same | ⟨key, mine, theirs⟩)
    · exact .inl (.inl known)
    · exact .inr ⟨key, theirs, .inl known⟩
    · exact .inl (.inr same)
    · exact .inr ⟨key, theirs, .inr mine⟩

theorem clashes_foldl_put {other : Registration} :
    (entries.foldl put registry).Clashes other ↔
      registry.Clashes other ∨ ∃ entry ∈ entries, entry.Clashes other := by
  induction entries generalizing registry with
  | nil => simp
  | cons entry entries ih =>
    rw [foldl_cons, ih, clashes_put, or_assoc]
    simp

theorem files_contains_foldl_put :
    (entries.foldl put registry).files.contains filename = registry.files.contains filename := by
  induction entries generalizing registry with
  | nil => rfl
  | cons entry entries ih => rw [foldl_cons, ih, files_contains_put]

/-! ## The index -/

theorem profilesIn_eq_ok {names : List String} :
    registry.profilesIn filename = .ok names ↔
      ∃ file, registry.files.get? filename = some file ∧ file.profiles = names := by
  rw [profilesIn, Checked.map_eq_ok, listed]
  cases registry.files.get? filename with
  | none =>
    constructor
    · rintro ⟨_, ⟨⟩, _⟩
    · rintro ⟨_, ⟨⟩, _⟩
  | some file =>
    constructor
    · rintro ⟨_, ⟨⟩, same⟩
      exact ⟨file, rfl, same⟩
    · rintro ⟨_, ⟨⟩, same⟩
      exact ⟨file, rfl, same⟩

theorem exists_mem_profilesIn :
    (∃ names, registry.profilesIn filename = .ok names ∧ name ∈ names) ↔
      ∃ file, registry.files.get? filename = some file ∧ name ∈ file.profiles := by
  simp only [profilesIn_eq_ok]
  constructor
  · rintro ⟨_, ⟨file, found, rfl⟩, member⟩
    exact ⟨file, found, member⟩
  · rintro ⟨file, found, member⟩
    exact ⟨_, ⟨file, found, rfl⟩, member⟩

/-- The maps of the registry agree with each other and with the profiles that have been registered. -/
structure Indexed (registry : Registry) (registered : List Registration) : Prop where
  named : ∀ filename name, registry.fileOfName? name = some filename ↔
    ∃ attachment, ⟨filename, name, attachment⟩ ∈ registered
  listed : ∀ filename name,
    (∃ names, registry.profilesIn filename = .ok names ∧ name ∈ names) ↔
      registry.fileOfName? name = some filename
  distinct : ∀ filename names, registry.profilesIn filename = .ok names → names.Nodup
  attached : ∀ entry ∈ registered, ∀ key, entry.key? = some key →
    registry.attachments.get? key = some (entry.filename, ⟨key, none⟩)

variable {registered : List Registration}

theorem indexed_empty : Indexed {} [] where
  named _ _ := ⟨nofun, nofun⟩
  listed _ _ := ⟨nofun, nofun⟩
  distinct _ _ := nofun
  attached _ := nofun

theorem Indexed.of_profilesIn {files : SortedMap String SourceFile} (indexed : registry.Indexed registered)
    (same : ∀ filename names, Registry.profilesIn { registry with files } filename = .ok names ↔
      registry.profilesIn filename = .ok names) : Indexed { registry with files } registered where
  named := indexed.named
  listed filename name := by
    simp only [same]
    exact indexed.listed filename name
  distinct filename names found := indexed.distinct filename names ((same filename names).mp found)
  attached := indexed.attached

theorem Indexed.addFile (indexed : registry.Indexed registered) (file : SourceFile)
    (new : registry.files.contains file.filename = false) (bare : file.profiles = []) :
    Indexed { registry with files := registry.files.insert file.filename file } registered := by
  have absent : registry.files.get? file.filename = none := by
    rwa [SortedMap.contains, Option.isSome_eq_false_iff, Option.isNone_iff_eq_none] at new
  have lookup : ∀ filename, (registry.files.insert file.filename file).get? filename =
      if filename = file.filename then some file else registry.files.get? filename := by
    intro filename
    rw [SortedMap.get?_insert]
    simp only [beq_iff_eq]
  refine ⟨indexed.named, fun filename name => ?_, fun filename names => ?_, indexed.attached⟩
  · refine Iff.trans ?_ (indexed.listed filename name)
    rw [exists_mem_profilesIn, exists_mem_profilesIn]
    simp only [lookup]
    split
    next same => simp [same, absent, bare]
    · rfl
  · rw [profilesIn_eq_ok]
    simp only [lookup]
    split
    · rintro ⟨_, ⟨⟩, rfl⟩
      rw [bare]
      exact List.Pairwise.nil
    · rw [← profilesIn_eq_ok]
      exact indexed.distinct filename names

theorem Indexed.put (indexed : registry.Indexed registered)
    (present : registry.files.contains entry.filename) (free : ¬registry.Clashes entry) :
    (registry.put entry).Indexed (registered ++ [entry]) := by
  have unknown : registry.fileOfName? entry.name = none := by
    rw [fileOfName?, ← Option.not_isSome_iff_eq_none]
    exact fun known => free (.inl known)
  obtain ⟨file, found⟩ := Option.isSome_iff_exists.mp present
  constructor
  case named =>
    intro filename name
    rw [fileOfName?, get?_names_put]
    simp only [mem_append, mem_singleton]
    split
    next same =>
      subst same
      constructor
      · rintro ⟨⟩
        exact ⟨entry.attachment, .inr rfl⟩
      · rintro ⟨attachment, known | last⟩
        · cases unknown.symm.trans ((indexed.named filename entry.name).mpr ⟨attachment, known⟩)
        · rw [← last]
    next different =>
      refine (indexed.named filename name).trans ?_
      constructor
      · rintro ⟨attachment, known⟩
        exact ⟨attachment, .inl known⟩
      · rintro ⟨attachment, known | rfl⟩
        · exact ⟨attachment, known⟩
        · exact absurd rfl different
  case listed =>
    intro filename name
    have before := indexed.listed filename name
    rw [exists_mem_profilesIn] at before ⊢
    rw [fileOfName?, get?_names_put, get?_files_put]
    by_cases here : filename = entry.filename
    · subst here
      simp only [found, Option.some.injEq, exists_eq_left'] at before
      simp only [found, if_true, Option.map_some, Option.some.injEq, exists_eq_left',
        SourceFile.mem_profiles_listing, before]
      split
      next same => simp [same]
      next different => simp [different, fileOfName?]
    · rw [if_neg here, before, fileOfName?]
      split
      next same =>
        subst same
        rw [← fileOfName?, unknown]
        simp [Ne.symm here]
      · rfl
  case distinct =>
    intro filename names
    rw [profilesIn_eq_ok, get?_files_put]
    split
    next here =>
      subst here
      rw [found]
      rintro ⟨_, ⟨⟩, rfl⟩
      exact SourceFile.nodup_profiles_listing
        (indexed.distinct entry.filename file.profiles (profilesIn_eq_ok.mpr ⟨file, found, rfl⟩))
    · rw [← profilesIn_eq_ok]
      exact indexed.distinct filename names
  case attached =>
    intro other member key theirs
    rw [get?_attachments_put]
    rcases mem_append.mp member with known | last
    · have before := indexed.attached other known key theirs
      have different : entry.key? ≠ some key := by
        intro mine
        refine free (.inr ⟨key, mine, ?_⟩)
        rw [SortedMap.contains, before]
        rfl
      rw [if_neg different, before]
    · obtain rfl := mem_singleton.mp last
      rw [if_pos theirs]

theorem Indexed.foldl_put (indexed : registry.Indexed registered)
    (present : ∀ entry ∈ entries, registry.files.contains entry.filename)
    (free : ∀ entry ∈ entries, ¬registry.Clashes entry)
    (apart : entries.Pairwise fun entry other => ¬entry.Clashes other) :
    (entries.foldl Registry.put registry).Indexed (registered ++ entries) := by
  induction entries generalizing registry registered with
  | nil => rwa [append_nil]
  | cons entry entries ih =>
    rw [forall_mem_cons] at present free
    obtain ⟨apartFrom, apart⟩ := pairwise_cons.mp apart
    rw [foldl_cons, append_cons]
    refine ih (indexed.put present.1 free.1) ?_ ?_ apart
    · intro other member
      rw [files_contains_put]
      exact present.2 other member
    · intro other member
      rw [clashes_put, not_or]
      exact ⟨free.2 other member, apartFrom other member⟩

/-! ## Registries that calls lead to -/

/-- The files that are added, by themselves or as fragments, come without profiles. -/
def Command.Plain : Command → Prop
  | .addFile file => file.profiles = []
  | .addFragment fragment => fragment.profileNames = []
  | _ => True

theorem plain_of_known {files : FileSystem} {config : Config} {session : Session}
    (reached : session.Reached files config) {fragment : Fragment} (known : fragment ∈ session.memo.values) :
    Command.Plain (.addFragment fragment) := by
  obtain ⟨entry, member, rfl⟩ := mem_map.mp known
  exact reached.sound.valid.profileNames (get?_eq_some_iff.mpr member)

/-- A fragment that came with a name, which none does that is read, would be listed with a profile that
leads nowhere. -/
theorem listed_of_addFragment {fragment : Fragment} {after : Registry} (listed : name ∈ fragment.profileNames)
    (unknown : registry.fileOfName? name = none)
    (success : (Command.addFragment fragment).perform.outcome registry = (.ok (), after)) :
    (∃ names, after.profilesIn fragment.filename = .ok names ∧ name ∈ names) ∧ after.fileOfName? name = none := by
  obtain ⟨_, rfl⟩ := Registering.outcome_addFile_eq_ok.mp success
  let source : SourceFile := ⟨fragment.filename, fragment.preamble, fragment.profileNames⟩
  refine ⟨exists_mem_profilesIn.mpr ⟨source, ?_, listed⟩, unknown⟩
  rw [get?_insert, BEq.rfl, if_pos rfl]

def Command.registrations : Command → List Registration
  | .addProfile entry => [entry]
  | .addParsed file => file.registrations
  | .addFile _ | .addFragment _ | .dedupPreamble _ => []

/-- The registries that calls lead to, whether they succeed or fail, with the profiles that have been
registered on the way. -/
inductive Reached : Registry → List Registration → Prop
  | new : Reached {} []
  | succeeded {registry : Registry} {registered : List Registration} (command : Command)
      (plain : command.Plain) (before : Reached registry registered)
      (success : (command.perform.outcome registry).1 = .ok ()) :
      Reached (command.perform.outcome registry).2 (registered ++ command.registrations)
  | failed {registry : Registry} {registered : List Registration} (command : Command)
      (error : PolicyError) (before : Reached registry registered)
      (failure : (command.perform.outcome registry).1 = .error error) :
      Reached (command.perform.outcome registry).2 registered

theorem Indexed.addParsed (indexed : registry.Indexed registered) {file : ParsedFile}
    (admits : registry.Admits file) :
    (registry.putParsed file).Indexed (registered ++ file.registrations) := by
  have bare : (registry.putSource file).Indexed registered :=
    indexed.addFile { filename := file.filename, preamble := file.preamble } admits.new rfl
  have present : (registry.putSource file).files.contains file.filename := by
    simp [putSource, SortedMap.contains, SortedMap.get?_insert]
  refine bare.foldl_put ?_ admits.free admits.apart
  intro entry member
  rwa [ParsedFile.filename_of_mem_registrations member]

theorem Indexed.setPreamble (indexed : registry.Indexed registered)
    (found : registry.files.get? filename = some file) (preamble : Preamble) :
    Indexed { registry with files := registry.files.insert filename { file with preamble } } registered := by
  refine indexed.of_profilesIn fun other names => ?_
  rw [profilesIn_eq_ok, profilesIn_eq_ok, get?_insert]
  simp only [beq_iff_eq]
  split
  next same => simp [same, found]
  · rfl

theorem Indexed.perform (indexed : registry.Indexed registered) {command : Command}
    (plain : command.Plain) {after : Registry}
    (success : command.perform.outcome registry = (.ok (), after)) :
    after.Indexed (registered ++ command.registrations) := by
  cases command with
  | addFile file =>
    obtain ⟨new, rfl⟩ := Registering.outcome_addFile_eq_ok.mp success
    rw [Command.registrations, append_nil]
    exact indexed.addFile file new plain
  | addFragment fragment =>
    obtain ⟨new, rfl⟩ := Registering.outcome_addFile_eq_ok.mp success
    rw [Command.registrations, append_nil]
    exact indexed.addFile _ new plain
  | addProfile entry =>
    obtain ⟨⟨present, free, _⟩, rfl⟩ := Registering.outcome_addProfile_eq_ok.mp success
    exact indexed.put present free
  | addParsed file =>
    obtain ⟨admits, rfl⟩ := Registering.outcome_addParsed_eq_ok.mp success
    exact indexed.addParsed admits
  | dedupPreamble filename =>
    obtain ⟨stats, _, removed, ⟨⟩⟩ := Registering.outcome_bind_eq_ok.mp success
    obtain ⟨file, found, _, rfl⟩ := Registering.outcome_dedupPreamble_eq_ok.mp removed
    rw [Command.registrations, append_nil]
    exact indexed.setPreamble found _

theorem Reached.indexed (reached : registry.Reached registered) : registry.Indexed registered := by
  induction reached with
  | new => exact indexed_empty
  | succeeded command plain _ success ih => exact ih.perform plain (Prod.ext success rfl)
  | failed command error _ failure ih =>
    rw [command.atomic_perform _ error failure]
    exact ih

def wildcard : Registration := ⟨"wild", "wild", some "/opt/**"⟩

/-- A file with a profile whose attachment, which is its name, matches the pattern. -/
def matched : ParsedFile where
  filename := "exact"
  profiles := [{ scope := { name := "/opt/foo", kind := .profile, filename := "exact" } }]

def shadowed : Registry :=
  ((do
    Registering.addFile { filename := "wild" }
    Registering.addFragment { filename := "base" }
    Registering.addProfile wildcard.filename wildcard.name wildcard.attachment
    Registering.addParsed matched : Registering Unit).outcome {}).2

theorem reached_shadowed : shadowed.Reached [wildcard, ⟨"exact", "/opt/foo", none⟩] := by
  have early := Reached.new.failed (.addProfile wildcard) (.misuse (.fileNotListed "wild"))
    (by decide +kernel)
  have listed := early.succeeded (.addFile { filename := "wild" }) rfl (by decide +kernel)
  have included := listed.succeeded (.addFragment { filename := "base" }) rfl (by decide +kernel)
  have attached := included.succeeded (.addProfile wildcard) trivial (by decide +kernel)
  have again := attached.failed (.addProfile wildcard) (.clash (.profileElsewhere "wild" "wild" "wild"))
    (by decide +kernel)
  have complete := again.succeeded (.addParsed matched) trivial (by decide +kernel)
  exact Eq.subst (by decide +kernel) complete

end Registry

end ArmorPolicy
