import ArmorPolicy.Proofs.Registry.Index
import Mathlib.Logic.Basic

/-!
# Registering files in any order

Files that are registered one after the other take names, attachments and lists of their own.  So two
of them can be exchanged, and every order leads to the same registry.
-/

namespace ArmorPolicy

variable {file other : ParsedFile}

namespace Registry

variable {registry : Registry}

/-! ## Exchanging two writes -/

theorem ext_get? {first second : Registry}
    (files : ∀ filename, first.files.get? filename = second.files.get? filename)
    (names : ∀ name, first.names.get? name = second.names.get? name)
    (attachments : ∀ key, first.attachments.get? key = second.attachments.get? key) : first = second := by
  cases first
  cases second
  congr
  · exact SortedMap.ext_get? files
  · exact SortedMap.ext_get? names
  · exact SortedMap.ext_get? attachments

theorem get?_files_putSource (file : ParsedFile) (filename : String) :
    (registry.putSource file).files.get? filename =
      if filename = file.filename then
        some { filename := file.filename, preamble := file.preamble }
      else registry.files.get? filename := by
  rw [putSource, SortedMap.get?_insert]
  simp only [beq_iff_eq]

theorem put_comm {entry other : Registration} (apart : ¬entry.Clashes other)
    (files : entry.filename ≠ other.filename) (registry : Registry) :
    (registry.put entry).put other = (registry.put other).put entry := by
  refine ext_get? (fun filename => ?_) (fun name => ?_) fun key => ?_
  · simp only [get?_files_put]
    by_cases here : filename = entry.filename
    · have elsewhere : filename ≠ other.filename := here ▸ files
      simp only [if_pos here, if_neg elsewhere]
    · simp only [if_neg here]
  · simp only [get?_names_put]
    exact ite_ite_comm _ _ _ _ fun theirs mine => apart (.inl (mine.symm.trans theirs))
  · simp only [get?_attachments_put]
    exact ite_ite_comm _ _ _ _ fun theirs mine => apart (.inr ⟨key, mine, theirs⟩)

theorem putSource_put {entry : Registration} (files : entry.filename ≠ file.filename) (registry : Registry) :
    (registry.put entry).putSource file = (registry.putSource file).put entry := by
  refine ext_get? (fun filename => ?_) (fun name => ?_) fun key => ?_
  · simp only [get?_files_put, get?_files_putSource]
    by_cases here : filename = entry.filename
    · have elsewhere : filename ≠ file.filename := here ▸ files
      simp only [if_pos here, if_neg elsewhere]
    · simp only [if_neg here]
  · exact (get?_names_put name).trans (get?_names_put name).symm
  · exact (get?_attachments_put key).trans (get?_attachments_put key).symm

theorem putSource_comm (files : file.filename ≠ other.filename) (registry : Registry) :
    (registry.putSource file).putSource other = (registry.putSource other).putSource file := by
  refine ext_get? (fun filename => ?_) (fun _ => rfl) fun _ => rfl
  simp only [get?_files_putSource]
  exact ite_ite_comm _ _ _ _ fun there here => files (here.symm.trans there)

/-! ## Exchanging two files -/

theorem foldl_put_comm (change : Registry → Registry) {entries : List Registration}
    (one : ∀ entry ∈ entries, ∀ registry, change (registry.put entry) = (change registry).put entry)
    (registry : Registry) :
    change (entries.foldl put registry) = entries.foldl put (change registry) := by
  induction entries generalizing registry with
  | nil => rfl
  | cons entry entries ih =>
    rw [List.forall_mem_cons] at one
    rw [List.foldl_cons, List.foldl_cons, ih one.2, one.1]

theorem putSource_foldl_put (files : file.filename ≠ other.filename) (registry : Registry) :
    (file.registrations.foldl put registry).putSource other =
      file.registrations.foldl put (registry.putSource other) := by
  refine foldl_put_comm (·.putSource other) (fun entry member => putSource_put ?_) registry
  rwa [ParsedFile.filename_of_mem_registrations member]

theorem putParsed_comm (files : file.filename ≠ other.filename)
    (apart : ∀ entry ∈ file.registrations, ∀ later ∈ other.registrations, ¬entry.Clashes later)
    (registry : Registry) :
    (registry.putParsed file).putParsed other = (registry.putParsed other).putParsed file := by
  have profiles : ∀ registry, other.registrations.foldl put (file.registrations.foldl put registry) =
      file.registrations.foldl put (other.registrations.foldl put registry) := by
    refine foldl_put_comm (fun registry => other.registrations.foldl put registry) ?_
    intro entry member registry
    refine (foldl_put_comm (·.put entry) (fun later behind => ?_) registry).symm
    refine put_comm (fun clash => apart entry member later behind clash.symm) ?_
    rw [ParsedFile.filename_of_mem_registrations member, ParsedFile.filename_of_mem_registrations behind]
    exact files.symm
  calc other.registrations.foldl put
          ((file.registrations.foldl put (registry.putSource file)).putSource other)
      = other.registrations.foldl put
          (file.registrations.foldl put ((registry.putSource file).putSource other)) := by
        rw [putSource_foldl_put files]
    _ = file.registrations.foldl put
          (other.registrations.foldl put ((registry.putSource file).putSource other)) := by
        rw [profiles]
    _ = file.registrations.foldl put
          (other.registrations.foldl put ((registry.putSource other).putSource file)) := by
        rw [putSource_comm files]
    _ = file.registrations.foldl put
          ((other.registrations.foldl put (registry.putSource other)).putSource file) := by
        rw [putSource_foldl_put files.symm]

/-- Behind a file, another one is admitted exactly if it was before, has another name, and none of its
profiles clashes with those of the file. -/
theorem admits_putParsed :
    (registry.putParsed file).Admits other ↔
      registry.Admits other ∧ file.filename ≠ other.filename ∧
        ∀ entry ∈ file.registrations, ∀ later ∈ other.registrations, ¬entry.Clashes later := by
  have clashes : ∀ later, (registry.putParsed file).Clashes later ↔
      registry.Clashes later ∨ ∃ entry ∈ file.registrations, entry.Clashes later :=
    fun _ => clashes_foldl_put
  have contains : (registry.putParsed file).files.contains other.filename = false ↔
      registry.files.contains other.filename = false ∧ file.filename ≠ other.filename := by
    rw [putParsed, files_contains_foldl_put, SortedMap.contains, get?_files_putSource, SortedMap.contains]
    split
    next same => simp [same]
    next different => simp [Ne.symm different]
  constructor
  · intro admits
    obtain ⟨new, files⟩ := contains.mp admits.new
    refine ⟨⟨new, fun later member clash => ?_, admits.apart, admits.valid⟩, files, ?_⟩
    · exact admits.free later member ((clashes later).mpr (.inl clash))
    · intro entry member later behind clash
      exact admits.free later behind ((clashes later).mpr (.inr ⟨entry, member, clash⟩))
  · rintro ⟨admits, files, apart⟩
    refine ⟨contains.mpr ⟨admits.new, files⟩, fun later behind clash => ?_, admits.apart, admits.valid⟩
    rcases (clashes later).mp clash with known | ⟨entry, member, clash⟩
    · exact admits.free later behind known
    · exact apart entry member later behind clash

theorem Admits.swap (first : registry.Admits file) (second : (registry.putParsed file).Admits other) :
    registry.Admits other ∧ (registry.putParsed other).Admits file ∧
      (registry.putParsed other).putParsed file = (registry.putParsed file).putParsed other := by
  obtain ⟨alone, files, apart⟩ := admits_putParsed.mp second
  refine ⟨alone, admits_putParsed.mpr ⟨first, files.symm, ?_⟩, (putParsed_comm files apart registry).symm⟩
  intro later behind entry member clash
  exact apart entry member later behind clash.symm

end Registry

namespace Registering

open Registry

theorem outcome_forM_addParsed_cons {files : List ParsedFile} {registry after : Registry} :
    ((file :: files).forM addParsed).outcome registry = (.ok (), after) ↔
      registry.Admits file ∧ (files.forM addParsed).outcome (registry.putParsed file) = (.ok (), after) := by
  refine outcome_bind_eq_ok.trans ?_
  constructor
  · rintro ⟨_, _, success, rest⟩
    obtain ⟨admits, rfl⟩ := outcome_addParsed_eq_ok.mp success
    exact ⟨admits, rest⟩
  · rintro ⟨admits, rest⟩
    exact ⟨(), _, outcome_addParsed_eq_ok.mpr ⟨admits, rfl⟩, rest⟩

/-- If files can be registered in one order, they can be registered in any other one, and the registry
is the same as a whole: every question about names, attachments and the profiles of a file has the same
answer. -/
theorem outcome_forM_addParsed_perm {files others : List ParsedFile} (same : files.Perm others)
    {registry after : Registry} (success : (files.forM addParsed).outcome registry = (.ok (), after)) :
    (others.forM addParsed).outcome registry = (.ok (), after) := by
  induction same generalizing registry with
  | nil => exact success
  | cons file _ ih =>
    obtain ⟨admits, rest⟩ := outcome_forM_addParsed_cons.mp success
    exact outcome_forM_addParsed_cons.mpr ⟨admits, ih rest⟩
  | swap file other files =>
    obtain ⟨first, rest⟩ := outcome_forM_addParsed_cons.mp success
    obtain ⟨second, rest⟩ := outcome_forM_addParsed_cons.mp rest
    obtain ⟨first, second, exchanged⟩ := first.swap second
    refine outcome_forM_addParsed_cons.mpr ⟨first, outcome_forM_addParsed_cons.mpr ⟨second, ?_⟩⟩
    rwa [exchanged]
  | trans _ _ first second => exact second (first success)

/-- Two files with patterns for attachments that match the same paths. -/
def overlapping : List ParsedFile :=
  ["/opt/f*", "/opt/**"].map fun glob =>
    { filename := "at " ++ glob
      profiles := [{ scope :=
        { name := glob, kind := .profile, filename := "at " ++ glob, attachment := some ⟨glob, none⟩ } }] }

/-- Whichever comes first, a path that both match belongs to the file of the pattern that sorts first. -/
theorem outcome_forM_addParsed_perm_overlapping :
    overlapping.Perm overlapping.reverse ∧
      ∃ registry, (overlapping.forM addParsed).outcome {} = (.ok (), registry) ∧
        (overlapping.reverse.forM addParsed).outcome {} = (.ok (), registry) ∧
        registry.fileOfAttachment? "/opt/foo" = some "at /opt/**" := by
  have perm : overlapping.Perm overlapping.reverse := (List.reverse_perm overlapping).symm
  have success : ((overlapping.forM addParsed).outcome {}).1 = .ok () := by decide +kernel
  exact ⟨perm, _, Prod.ext success rfl, outcome_forM_addParsed_perm perm (Prod.ext success rfl),
    by decide +kernel⟩

end Registering

end ArmorPolicy
