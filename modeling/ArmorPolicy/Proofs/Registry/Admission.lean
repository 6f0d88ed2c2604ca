import ArmorPolicy.Registry
import ArmorPolicy.Proofs.Data.Sorted
import ArmorPolicy.Proofs.Rule.Reading

/-!
# What the registry admits

Registering looks first and writes afterwards: what looks at the registry changes nothing, and what
writes cannot fail.  So whatever fails leaves the registry as it was.  A file with profiles is admitted
exactly if the file is new, no profile has the name or the attachment of a known one or of another one
in the file, and every attachment is a path.
-/

namespace ArmorPolicy

open List

/-! ## Looking and writing -/

namespace Registering

variable {α β : Type} {registering : Registering α} {next : α → Registering β}

theorem outcome_bind (registering : Registering α) (next : α → Registering β) (registry : Registry) :
    (registering >>= next).outcome registry =
      match registering.outcome registry with
      | (.ok a, after) => (next a).outcome after
      | (.error error, after) => (.error error, after) := by
  unfold outcome
  rw [ExceptT.run_bind, StateT.run_bind]
  rcases (ExceptT.run registering).run registry with ⟨_ | a, after⟩ <;> rfl

theorem outcome_bind_eq_ok {registry after : Registry} {b : β} :
    (registering >>= next).outcome registry = (.ok b, after) ↔
      ∃ a middle, registering.outcome registry = (.ok a, middle) ∧
        (next a).outcome middle = (.ok b, after) := by
  rw [outcome_bind]
  rcases registering.outcome registry with ⟨error | a, middle⟩
  · exact iff_of_false nofun nofun
  · constructor
    · intro success
      exact ⟨a, middle, rfl, success⟩
    · rintro ⟨_, _, ⟨⟩, success⟩
      exact success

def Observes (registering : Registering α) : Prop :=
  ∀ registry, (registering.outcome registry).2 = registry

def Succeeds (registering : Registering α) : Prop :=
  ∀ registry, ∃ a, (registering.outcome registry).1 = .ok a

def Atomic (registering : Registering α) : Prop :=
  ∀ registry error, (registering.outcome registry).1 = .error error →
    (registering.outcome registry).2 = registry

theorem observes_ofChecked (result : Checked α) : (ofChecked result).Observes := fun _ => rfl

theorem observes_throw (error : PolicyError) : (throw error : Registering α).Observes := fun _ => rfl

theorem observes_pure (a : α) : (pure a : Registering α).Observes := fun _ => rfl

theorem observes_get : (get : Registering Registry).Observes := fun _ => rfl

theorem succeeds_modify (f : Registry → Registry) : (modify f : Registering Unit).Succeeds :=
  fun _ => ⟨(), rfl⟩

theorem succeeds_pure (a : α) : (pure a : Registering α).Succeeds := fun _ => ⟨a, rfl⟩

theorem Observes.bind (first : registering.Observes) (second : ∀ a, (next a).Observes) :
    (registering >>= next).Observes := by
  intro registry
  have same := first registry
  rw [outcome_bind]
  rcases attempt : registering.outcome registry with ⟨error | a, after⟩
  · rwa [attempt] at same
  · rw [attempt] at same
    exact (second a after).trans same

theorem Observes.foldlM {step : β → α → Registering β} (one : ∀ b a, (step b a).Observes)
    (members : List α) (start : β) : (members.foldlM step start).Observes := by
  induction members generalizing start with
  | nil => exact observes_pure start
  | cons a members ih =>
    rw [foldlM_cons]
    exact (one start a).bind ih

theorem Succeeds.bind (first : registering.Succeeds) (second : ∀ a, (next a).Succeeds) :
    (registering >>= next).Succeeds := by
  intro registry
  obtain ⟨a, success⟩ := first registry
  rw [outcome_bind]
  rcases attempt : registering.outcome registry with ⟨result, after⟩
  rw [attempt] at success
  obtain rfl : result = .ok a := success
  exact second a after

theorem Succeeds.forM {step : α → Registering Unit} (one : ∀ a, (step a).Succeeds)
    (members : List α) : (members.forM step).Succeeds := by
  induction members with
  | nil => exact succeeds_pure ()
  | cons a members ih => exact (one a).bind fun _ => ih

theorem Observes.atomic (observes : registering.Observes) : registering.Atomic :=
  fun registry _ _ => observes registry

theorem Succeeds.atomic (succeeds : registering.Succeeds) : registering.Atomic := by
  intro registry error failure
  obtain ⟨a, success⟩ := succeeds registry
  rw [success] at failure
  cases failure

theorem Observes.bind_atomic (first : registering.Observes) (second : ∀ a, (next a).Atomic) :
    (registering >>= next).Atomic := by
  intro registry error
  have same := first registry
  rw [outcome_bind]
  rcases attempt : registering.outcome registry with ⟨failure | a, after⟩
  · rw [attempt] at same
    exact fun _ => same
  · rw [attempt] at same
    obtain rfl : after = registry := same
    exact second a after error

theorem Atomic.bind_succeeds (first : registering.Atomic) (second : ∀ a, (next a).Succeeds) :
    (registering >>= next).Atomic := by
  intro registry error
  rw [outcome_bind]
  rcases attempt : registering.outcome registry with ⟨failure | a, after⟩
  · intro _
    have same := first registry failure (congrArg Prod.fst attempt)
    rwa [attempt] at same
  · intro impossible
    obtain ⟨b, success⟩ := second a after
    cases success.symm.trans impossible

theorem atomic_ite {condition : Prop} [Decidable condition] {first second : Registering α}
    (left : first.Atomic) (right : second.Atomic) :
    (if condition then first else second).Atomic := by
  split
  · exact left
  · exact right

/-! ## The operations -/

theorem atomic_addFile (file : SourceFile) : (addFile file).Atomic :=
  observes_get.bind_atomic fun _ =>
    atomic_ite (observes_throw _).atomic (succeeds_modify _).atomic

theorem atomic_addProfile (filename name : String) (attachment : Option String) :
    (addProfile filename name attachment).Atomic :=
  observes_get.bind_atomic fun _ => atomic_ite
    (observes_get.bind_atomic fun _ => (observes_ofChecked _).bind_atomic fun _ =>
      (succeeds_modify _).atomic)
    (observes_throw _).atomic

theorem observes_checkNext (filename : String) (earlier : List Registry.Candidate) (profile : Profile) :
    (checkNext filename earlier profile).Observes := by
  refine observes_get.bind fun _ => (observes_ofChecked _).bind fun _ => ?_
  split
  · exact observes_throw _
  · split
    · exact observes_throw _
    · exact observes_pure _

theorem atomic_addParsed (file : ParsedFile) : (addParsed file).Atomic := by
  refine observes_get.bind_atomic fun _ => atomic_ite (observes_throw _).atomic ?_
  refine (Observes.foldlM (observes_checkNext file.filename) _ _).bind_atomic fun candidates => ?_
  exact ((succeeds_modify _).bind fun _ => Succeeds.forM (fun _ => succeeds_modify _) candidates).atomic

theorem atomic_dedupPreamble (filename : String) : (dedupPreamble filename).Atomic :=
  observes_get.bind_atomic fun _ => (observes_ofChecked _).bind_atomic fun _ =>
    ((succeeds_modify _).bind fun _ => succeeds_pure _).atomic

end Registering

/-! ## What a profile takes -/

/-- A profile as it is registered: its file, its name and the attachment that is stated for it. -/
structure Registration where
  filename : String
  name : String
  attachment : Option String
  deriving DecidableEq

namespace Registration

def key? (entry : Registration) : Option String := Registry.attachmentOf entry.name entry.attachment

def candidate (entry : Registration) : Registry.Candidate :=
  ⟨entry.name, entry.key?.map fun key => (key, ⟨key, none⟩)⟩

def Clashes (entry other : Registration) : Prop :=
  entry.name = other.name ∨ ∃ key, entry.key? = some key ∧ other.key? = some key

def Valid (entry : Registration) : Prop :=
  ∀ key, entry.key? = some key → Pattern.ofText key true = .ok ⟨key, none⟩

theorem key?_eq_some_iff {entry : Registration} {key : String} :
    entry.key? = some key ↔
      entry.attachment = some key ∨
        entry.attachment = none ∧ entry.name = key ∧ key.toList.head? = some '/' := by
  unfold key? Registry.attachmentOf
  cases entry.attachment with
  | some attachment => simp
  | none =>
    simp only [beq_iff_eq, Option.ite_none_right_eq_some, Option.some.injEq, reduceCtorEq, true_and, false_or]
    constructor
    · rintro ⟨slash, rfl⟩
      exact ⟨rfl, slash⟩
    · rintro ⟨rfl, slash⟩
      exact ⟨slash, rfl⟩

theorem key_candidate (entry : Registration) : entry.candidate.attachment.map Prod.fst = entry.key? := by
  rw [candidate]
  cases entry.key? <;> rfl

theorem Clashes.symm {entry other : Registration} (clash : entry.Clashes other) : other.Clashes entry := by
  rcases clash with name | ⟨key, mine, theirs⟩
  · exact .inl name.symm
  · exact .inr ⟨key, theirs, mine⟩

end Registration

def Profile.registration (filename : String) (profile : Profile) : Registration :=
  ⟨filename, profile.scope.name, profile.scope.attachment.map Pattern.glob⟩

def ParsedFile.registrations (file : ParsedFile) : List Registration :=
  file.profiles.map (Profile.registration file.filename)

theorem ParsedFile.filename_of_mem_registrations {file : ParsedFile} {entry : Registration}
    (member : entry ∈ file.registrations) : entry.filename = file.filename := by
  obtain ⟨profile, _, rfl⟩ := mem_map.mp member
  rfl

theorem Pattern.eq_of_ofText {glob : String} {isPath : Bool} {pattern : Pattern}
    (success : ofText glob isPath = .ok pattern) : pattern = ⟨glob, none⟩ := by
  unfold ofText at success
  split at success
  · cases success
  · split at success
    · cases success
    · exact (Except.ok.inj success).symm

namespace Registry

def Clashes (registry : Registry) (entry : Registration) : Prop :=
  registry.names.contains entry.name = true ∨
    ∃ key, entry.key? = some key ∧ registry.attachments.contains key = true

/-- A profile passes the check exactly if the registry knows neither its name nor its attachment, and
the attachment is a path. -/
theorem checkProfile_eq_ok (registry : Registry) (entry : Registration) {found : Option (String × Pattern)} :
    registry.checkProfile entry.filename entry.name entry.attachment = .ok found ↔
      ¬registry.Clashes entry ∧ entry.Valid ∧ found = entry.candidate.attachment := by
  unfold checkProfile Clashes Registration.Valid Registration.candidate Registration.key? SortedMap.contains
  cases registry.names.get? entry.name with
  | some known => simp [conflict]
  | none =>
    cases attachmentOf entry.name entry.attachment with
    | none =>
      have none_eq : (.ok none : Checked (Option (String × Pattern))) = .ok found ↔ found = none :=
        ⟨fun same => (Except.ok.inj same).symm, fun same => same ▸ rfl⟩
      simp [none_eq]
    | some key =>
      cases attached : registry.attachments.get? key with
      | some known => simp [attached, conflict]
      | none =>
        simp only [attached, Checked.map_eq_ok]
        constructor
        · rintro ⟨pattern, success, rfl⟩
          obtain rfl := Pattern.eq_of_ofText success
          simp [attached, success]
        · rintro ⟨_, valid, rfl⟩
          exact ⟨_, valid key rfl, rfl⟩

def put (registry : Registry) (entry : Registration) : Registry :=
  registry.insertProfile entry.filename entry.name entry.candidate.attachment

def putSource (registry : Registry) (file : ParsedFile) : Registry :=
  { registry with
    files := registry.files.insert file.filename { filename := file.filename, preamble := file.preamble } }

def putParsed (registry : Registry) (file : ParsedFile) : Registry :=
  file.registrations.foldl put (registry.putSource file)

/-- The file is new, and its profiles clash neither with known profiles nor with each other. -/
structure Admits (registry : Registry) (file : ParsedFile) : Prop where
  new : registry.files.contains file.filename = false
  free : ∀ entry ∈ file.registrations, ¬registry.Clashes entry
  apart : file.registrations.Pairwise fun entry other => ¬entry.Clashes other
  valid : ∀ entry ∈ file.registrations, entry.Valid

end Registry

namespace Registering

open Registry
variable {earlier : List Registration} {after : Registry} {filename : String} {registry : Registry}

theorem outcome_get_bind {α : Type} (next : Registry → Registering α) :
    (get >>= next).outcome registry = (next registry).outcome registry := rfl

theorem outcome_ofChecked_bind {α β : Type} (result : Checked α) (next : α → Registering β) :
    (ofChecked result >>= next).outcome registry =
      match result with
      | .ok a => (next a).outcome registry
      | .error error => (.error error, registry) := by
  cases result <;> rfl

theorem any_name_candidate {name : String} :
    ((earlier.map Registration.candidate).any fun candidate => candidate.name == name) ↔
      ∃ known ∈ earlier, known.name = name := by
  simp [Registration.candidate]

theorem filter_attachment_candidate {entry : Registration} :
    (entry.candidate.attachment.filter fun found =>
        (earlier.map Registration.candidate).any fun candidate =>
          (candidate.attachment.map Prod.fst) == some found.1) = none ↔
      ∀ known ∈ earlier, ¬∃ key, known.key? = some key ∧ entry.key? = some key := by
  simp only [Registration.key_candidate, any_map, Function.comp_def]
  cases mine : entry.key? with
  | none => simp [Registration.candidate, mine]
  | some key => simp [Registration.candidate, mine, Option.filter_some]

theorem outcome_checkNext {profile : Profile} {candidates : List Candidate} :
    ((checkNext filename (earlier.map Registration.candidate) profile).outcome registry).1 = .ok candidates ↔
      ¬registry.Clashes (profile.registration filename) ∧ (profile.registration filename).Valid ∧
        (∀ known ∈ earlier, ¬known.Clashes (profile.registration filename)) ∧
          candidates = (earlier ++ [profile.registration filename]).map Registration.candidate := by
  rw [checkNext, outcome_get_bind, outcome_ofChecked_bind]
  cases attempt : registry.checkProfile filename profile.scope.name
      (profile.scope.attachment.map Pattern.glob) with
  | error error =>
    refine iff_of_false nofun ?_
    rintro ⟨free, valid, _⟩
    have passes := (checkProfile_eq_ok registry (profile.registration filename)).mpr ⟨free, valid, rfl⟩
    cases attempt.symm.trans passes
  | ok found =>
    obtain ⟨free, valid, rfl⟩ := (checkProfile_eq_ok registry (profile.registration filename)).mp attempt
    simp only [free, valid, not_false_eq_true, true_and]
    split
    next shared =>
      obtain ⟨known, member, same⟩ := any_name_candidate.mp shared
      exact iff_of_false nofun fun passes => passes.1 known member (.inl same)
    next distinct =>
      split
      next key _ shared =>
        refine iff_of_false nofun fun passes => ?_
        have unshared := filter_attachment_candidate.mpr fun known member same =>
          passes.1 known member (.inr same)
        cases shared.symm.trans unshared
      next unshared =>
        have keys := filter_attachment_candidate.mp unshared
        have apart : ∀ known ∈ earlier, ¬known.Clashes (profile.registration filename) := by
          rintro known member (same | same)
          · exact distinct (any_name_candidate.mpr ⟨known, member, same⟩)
          · exact keys known member same
        rw [map_append]
        exact ⟨fun passes => ⟨apart, (Except.ok.inj passes).symm⟩, fun passes => passes.2 ▸ rfl⟩

theorem outcome_foldlM_checkNext {profiles : List Profile} {candidates : List Candidate}
    (apart : earlier.Pairwise fun entry other => ¬entry.Clashes other) :
    ((profiles.foldlM (checkNext filename) (earlier.map Registration.candidate)).outcome
        registry).1 = .ok candidates ↔ (∀ entry ∈ profiles.map (Profile.registration filename),
        ¬registry.Clashes entry ∧ entry.Valid) ∧
        ((earlier ++ profiles.map (Profile.registration filename)).Pairwise fun entry other =>
          ¬entry.Clashes other) ∧
        candidates = (earlier ++ profiles.map (Profile.registration filename)).map
          Registration.candidate := by
  induction profiles generalizing earlier with
  | nil =>
    simp only [map_nil, append_nil, not_mem_nil, false_implies, implies_true, apart, true_and]
    exact ⟨fun success => (Except.ok.inj success).symm, fun same => same ▸ rfl⟩
  | cons profile profiles ih =>
    rw [foldlM_cons, outcome_bind, map_cons, forall_mem_cons]
    have unchanged := observes_checkNext filename (earlier.map Registration.candidate) profile registry
    rcases attempt : (checkNext filename (earlier.map Registration.candidate) profile).outcome
        registry with ⟨error | next, after⟩
    · refine iff_of_false nofun ?_
      rintro ⟨⟨⟨free, valid⟩, _⟩, pairs, _⟩
      have apartFrom := (pairwise_append.mp pairs).2.2
      have passes := outcome_checkNext.mpr ⟨free, valid,
        fun known member => apartFrom known member _ mem_cons_self, rfl⟩
      rw [attempt] at passes
      cases passes
    · rw [attempt] at unchanged
      obtain rfl : after = registry := unchanged
      obtain ⟨free, valid, apartFrom, rfl⟩ := outcome_checkNext.mp (congrArg Prod.fst attempt)
      have extended : (earlier ++ [profile.registration filename]).Pairwise fun entry other =>
          ¬entry.Clashes other := by
        refine pairwise_append.mpr ⟨apart, pairwise_singleton _ _, ?_⟩
        intro known member other last
        rw [mem_singleton.mp last]
        exact apartFrom known member
      rw [ih extended]
      simp [free, valid]

theorem outcome_forM_insertProfile (registry : Registry) (file : ParsedFile) :
    ((file.registrations.map Registration.candidate).forM fun candidate =>
        (modify fun registry => registry.insertProfile file.filename candidate.name
          candidate.attachment : Registering Unit)).outcome registry =
      (.ok (), file.registrations.foldl put registry) := by
  unfold ParsedFile.registrations
  generalize file.profiles = profiles
  induction profiles generalizing registry with
  | nil => rfl
  | cons profile profiles ih => exact ih _

theorem outcome_addFile_eq_ok {file : SourceFile} :
    (addFile file).outcome registry = (.ok (), after) ↔
      registry.files.contains file.filename = false ∧
        after = { registry with files := registry.files.insert file.filename file } := by
  rw [addFile, outcome_get_bind]
  split
  next listed =>
    refine iff_of_false nofun ?_
    rintro ⟨new, _⟩
    cases new.symm.trans listed
  next new =>
    constructor
    · intro success
      exact ⟨Bool.eq_false_iff.mpr new, (Prod.mk.inj success).2.symm⟩
    · rintro ⟨_, rfl⟩
      rfl

theorem outcome_addProfile_eq_ok {entry : Registration} :
    (addProfile entry.filename entry.name entry.attachment).outcome registry = (.ok (), after) ↔
      (registry.files.contains entry.filename ∧ ¬registry.Clashes entry ∧ entry.Valid) ∧
        after = registry.put entry := by
  rw [addProfile, outcome_get_bind]
  split
  next listed =>
    rw [outcome_get_bind, outcome_ofChecked_bind]
    cases attempt : registry.checkProfile entry.filename entry.name entry.attachment with
    | error error =>
      refine iff_of_false nofun ?_
      rintro ⟨⟨_, free, valid⟩, _⟩
      cases attempt.symm.trans ((checkProfile_eq_ok registry entry).mpr ⟨free, valid, rfl⟩)
    | ok found =>
      obtain ⟨free, valid, rfl⟩ := (checkProfile_eq_ok registry entry).mp attempt
      constructor
      · intro success
        exact ⟨⟨listed, free, valid⟩, (Prod.mk.inj success).2.symm⟩
      · rintro ⟨_, rfl⟩
        rfl
  next missing =>
    refine iff_of_false nofun ?_
    rintro ⟨⟨listed, _⟩, _⟩
    exact missing listed

theorem outcome_addParsed_eq_ok {file : ParsedFile} :
    (addParsed file).outcome registry = (.ok (), after) ↔
      registry.Admits file ∧ after = registry.putParsed file := by
  rw [addParsed, outcome_get_bind]
  split
  next listed =>
    refine iff_of_false nofun ?_
    rintro ⟨admits, _⟩
    rw [admits.new] at listed
    cases listed
  next new =>
    rw [outcome_bind]
    have unchanged := Observes.foldlM (observes_checkNext file.filename) file.profiles [] registry
    rcases attempt : (file.profiles.foldlM (checkNext file.filename) []).outcome registry with
      ⟨error | candidates, middle⟩
    · refine iff_of_false nofun ?_
      rintro ⟨admits, _⟩
      have passes := (outcome_foldlM_checkNext List.Pairwise.nil).mpr
        ⟨fun entry member => ⟨admits.free entry member, admits.valid entry member⟩, admits.apart, rfl⟩
      rw [map_nil, attempt] at passes
      cases passes
    · rw [attempt] at unchanged
      obtain rfl : middle = registry := unchanged
      obtain ⟨each, apart, rfl⟩ := (outcome_foldlM_checkNext List.Pairwise.nil).mp (congrArg Prod.fst attempt)
      have admits : middle.Admits file :=
        ⟨Bool.eq_false_iff.mpr new, fun entry member => (each entry member).1, apart,
          fun entry member => (each entry member).2⟩
      have written := outcome_forM_insertProfile (middle.putSource file) file
      constructor
      · intro success
        exact ⟨admits, (Prod.mk.inj (success.symm.trans written)).2⟩
      · rintro ⟨_, rfl⟩
        exact written

theorem outcome_dedupPreamble_eq_ok {stats : DedupStats} :
    (dedupPreamble filename).outcome registry = (.ok stats, after) ↔
      ∃ file, registry.files.get? filename = some file ∧ file.preamble.dedup.2 = stats ∧
        after = { registry with
          files := registry.files.insert filename { file with preamble := file.preamble.dedup.1 } } := by
  rw [dedupPreamble, outcome_get_bind, outcome_ofChecked_bind, Registry.listed]
  cases registry.files.get? filename with
  | none => exact iff_of_false nofun nofun
  | some file =>
    constructor
    · intro success
      obtain ⟨same, changed⟩ := Prod.mk.inj success
      exact ⟨file, rfl, Except.ok.inj same, changed.symm⟩
    · rintro ⟨_, ⟨⟩, rfl, rfl⟩
      rfl

end Registering

namespace Registry

/-! ## Failures -/

inductive Command where
  | addFile (file : SourceFile)
  | addFragment (fragment : Fragment)
  | addProfile (entry : Registration)
  | addParsed (file : ParsedFile)
  | dedupPreamble (filename : String)

/-- What a call does; the counts of a removal are left out. -/
def Command.perform : Command → Registering Unit
  | .addFile file => Registering.addFile file
  | .addFragment fragment => Registering.addFragment fragment
  | .addProfile entry => Registering.addProfile entry.filename entry.name entry.attachment
  | .addParsed file => Registering.addParsed file
  | .dedupPreamble filename => do
      let _ ← Registering.dedupPreamble filename

open Registering in
theorem Command.atomic_perform (command : Command) : command.perform.Atomic := by
  cases command with
  | addFile file => exact atomic_addFile file
  | addFragment fragment => exact atomic_addFile _
  | addProfile entry => exact atomic_addProfile entry.filename entry.name entry.attachment
  | addParsed file => exact atomic_addParsed file
  | dedupPreamble filename =>
    exact (atomic_dedupPreamble filename).bind_succeeds fun _ => succeeds_pure ()

theorem Admits.not_clashes {registry : Registry} {file : ParsedFile} (admits : registry.Admits file)
    {n : Nat} {entry : Registration} (nth : file.registrations[n]? = some entry) :
    ¬(registry.Clashes entry ∨ ∃ earlier ∈ file.registrations.take n, earlier.Clashes entry) := by
  rintro (clash | ⟨earlier, before, clash⟩)
  · exact admits.free entry (List.mem_of_getElem? nth) clash
  · obtain ⟨bound, rfl⟩ := List.getElem?_eq_some_iff.mp nth
    obtain ⟨m, below, rfl⟩ := List.mem_take_iff_getElem.mp before
    exact List.pairwise_iff_getElem.mp admits.apart m n _ bound (by omega) clash

/-- A call that fails leaves the registry as it was.  In particular, a file is not registered at all when
one of its profiles clashes with the registry or with an earlier profile of the file. -/
theorem unchanged_of_failure (registry : Registry) :
    (∀ (command : Command) (error : PolicyError) (after : Registry),
      command.perform.outcome registry = (.error error, after) → after = registry) ∧
    ∀ (file : ParsedFile) (n : Nat) (entry : Registration), file.registrations[n]? = some entry →
      (registry.Clashes entry ∨ ∃ earlier ∈ file.registrations.take n, earlier.Clashes entry) →
        ∃ error, (Registering.addParsed file).outcome registry = (.error error, registry) := by
  constructor
  · intro command error after failure
    have unchanged := command.atomic_perform registry error (congrArg Prod.fst failure)
    rwa [failure] at unchanged
  · intro file n entry nth clash
    rcases attempt : (Registering.addParsed file).outcome registry with ⟨error | done, after⟩
    · have unchanged := Registering.atomic_addParsed file registry error (congrArg Prod.fst attempt)
      rw [attempt] at unchanged
      exact ⟨error, congrArg _ unchanged⟩
    · exact absurd clash ((Registering.outcome_addParsed_eq_ok.mp attempt).1.not_clashes nth)

def occupied : Registry :=
  ((do
    Registering.addFile { filename := "existing" }
    Registering.addProfile "existing" "/usr/bin/bar" none : Registering Unit).outcome {}).2

/-- A file whose second profile is the one of `occupied`. -/
def latecomer : ParsedFile where
  filename := "new"
  profiles := ["/usr/bin/foo", "/usr/bin/bar"].map fun name =>
    { scope := { name, kind := .profile, filename := "new" } }

/-- The file is not registered because of its second profile, and its first profile neither.  A file that
is listed already is not registered again. -/
theorem unchanged_of_failure_second :
    (latecomer.registrations[1]? = some ⟨"new", "/usr/bin/bar", none⟩ ∧
      occupied.Clashes ⟨"new", "/usr/bin/bar", none⟩ ∧
      ∃ error, (Registering.addParsed latecomer).outcome occupied = (.error error, occupied) ∧
        occupied.fileOfName? "/usr/bin/foo" = none) ∧
    ((Command.addFile { filename := "existing" }).perform.outcome occupied).1 =
        .error (.misuse (.fileListed "existing")) ∧
      ((Command.addFile { filename := "existing" }).perform.outcome occupied).2 = occupied := by
  have clash : occupied.Clashes ⟨"new", "/usr/bin/bar", none⟩ := .inl (by decide +kernel)
  obtain ⟨error, failed⟩ := (unchanged_of_failure occupied).2 latecomer 1 _ rfl (.inl clash)
  have listed : ((Command.addFile { filename := "existing" }).perform.outcome occupied).1 =
      .error (.misuse (.fileListed "existing")) := by decide +kernel
  exact ⟨⟨rfl, clash, error, failed, by decide +kernel⟩, listed,
    (unchanged_of_failure occupied).1 _ _ _ (Prod.ext listed rfl)⟩

end Registry

end ArmorPolicy
