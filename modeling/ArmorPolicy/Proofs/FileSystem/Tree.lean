import ArmorPolicy.FileSystem.Basic
import ArmorPolicy.Proofs.Data.Sorted
import Mathlib.Data.List.Induction

/-!
# What is below a directory

What is in a directory comes in the order of the names.  In a file system in which everything stands in
a directory, there is a way down to every entry.
-/

namespace ArmorPolicy.FileSystem

open List

variable {files : FileSystem} {directory place other : List String} {entry : FileEntry}

/-- Everything stands in a directory. -/
def IsTree (files : FileSystem) : Prop :=
  ∀ place ∈ files.entries.keys, files.isDirectoryAt place.dropLast = true

instance (files : FileSystem) : Decidable files.IsTree :=
  inferInstanceAs (Decidable (∀ place ∈ files.entries.keys, files.isDirectoryAt place.dropLast = true))

theorem entryAt_eq_some_iff (below : place ≠ []) :
    files.entryAt place = some entry ↔ (place, entry) ∈ files.entries.entries := by
  rw [entryAt, if_neg (by simpa using below)]
  exact SortedMap.get?_eq_some_iff

theorem mem_keys_of_entryAt (below : place ≠ []) (found : files.entryAt place = some entry) :
    place ∈ files.entries.keys :=
  mem_map_of_mem ((entryAt_eq_some_iff below).mp found)

theorem below?_eq_some_iff {rest : List String} : below? directory place = some rest ↔ place = directory ++ rest := by
  simp only [below?, Option.ite_none_right_eq_some, Option.some.injEq, isPrefixOf_iff_prefix]
  constructor
  · rintro ⟨⟨behind, rfl⟩, rfl⟩
    rw [drop_left]
  · rintro rfl
    exact ⟨prefix_append .., drop_left ..⟩

theorem entry_below_iff {whole found : List String × FileEntry} :
    (match whole with
      | (place, entry) =>
        match below? directory place with
        | some (name :: rest) => some (name :: rest, entry)
        | _ => none) = some found ↔
      found.1 ≠ [] ∧ whole = (directory ++ found.1, found.2) := by
  obtain ⟨place, entry⟩ := whole
  obtain ⟨rest, other⟩ := found
  dsimp only
  constructor
  · intro same
    split at same
    next name behind below =>
      cases same
      exact ⟨by simp, by rw [below?_eq_some_iff.mp below]⟩
    · cases same
  · rintro ⟨nonempty, same⟩
    cases same
    obtain ⟨name, behind, rfl⟩ := exists_cons_of_ne_nil nonempty
    rw [below?_eq_some_iff.mpr rfl]

theorem mem_entriesBelow :
    (place, entry) ∈ files.entriesBelow directory ↔
      place ≠ [] ∧ files.entryAt (directory ++ place) = some entry := by
  rw [entriesBelow, mem_filterMap]
  constructor
  · rintro ⟨whole, member, same⟩
    obtain ⟨below, rfl⟩ := entry_below_iff.mp same
    exact ⟨below, (entryAt_eq_some_iff (by simp [below])).mpr member⟩
  · rintro ⟨below, found⟩
    have member := (entryAt_eq_some_iff (by simp [below])).mp found
    exact ⟨_, member, (@entry_below_iff _ _ (place, entry)).mpr ⟨below, rfl⟩⟩

theorem compare_append (start first second : List String) :
    compare (start ++ first) (start ++ second) = compare first second := by
  induction start with
  | nil => rfl
  | cons name start ih => rw [List.cons_append, List.cons_append, List.compare_cons_cons, Std.compare_self, ih]; rfl

theorem pairwise_entriesBelow (files : FileSystem) (directory : List String) :
    (files.entriesBelow directory).Pairwise fun first second => compare first.1 second.1 = .lt := by
  refine List.Pairwise.filterMap _ ?_ files.entries.sorted
  intro first second less found isFirst other isSecond
  obtain ⟨_, rfl⟩ := entry_below_iff.mp isFirst
  obtain ⟨_, rfl⟩ := entry_below_iff.mp isSecond
  rwa [compare_append] at less

theorem entry_in_iff {whole : List String × FileEntry} {name : String} :
    (match whole with
      | (rest, entry) =>
        match rest with
        | [name] => some (name, entry)
        | _ => none) = some (name, entry) ↔ whole = ([name], entry) := by
  obtain ⟨rest, other⟩ := whole
  dsimp only
  split
  next found => simp
  next single =>
    constructor
    · nofun
    · rintro ⟨⟩
      exact absurd rfl (single name)

theorem mem_entriesIn {name : String} :
    (name, entry) ∈ files.entriesIn directory ↔ files.entryAt (directory ++ [name]) = some entry := by
  rw [entriesIn, mem_filterMap]
  constructor
  · rintro ⟨whole, member, same⟩
    obtain rfl := entry_in_iff.mp same
    exact (mem_entriesBelow.mp member).2
  · intro found
    exact ⟨_, mem_entriesBelow.mpr ⟨by simp, found⟩, entry_in_iff.mpr rfl⟩

theorem pairwise_entriesIn (files : FileSystem) (directory : List String) :
    (files.entriesIn directory).Pairwise fun first second => compare first.1 second.1 = .lt := by
  refine List.Pairwise.filterMap _ ?_ (files.pairwise_entriesBelow directory)
  rintro first second less ⟨name, entry⟩ isFirst ⟨next, other⟩ isSecond
  obtain rfl := entry_in_iff.mp isFirst
  obtain rfl := entry_in_iff.mp isSecond
  rw [List.compare_cons_cons, Ordering.then_eq_lt] at less
  exact less.resolve_right fun ⟨_, impossible⟩ => by cases impossible

theorem entryAt_of_isDirectoryAt (isDirectory : files.isDirectoryAt place) : files.entryAt place = some .directory := by
  unfold isDirectoryAt at isDirectory
  split at isDirectory
  · assumption
  · cases isDirectory

theorem IsTree.isDirectoryAt_of_below (tree : files.IsTree) (below : place ≠ [])
    (found : files.entryAt (directory ++ place) = some entry) : files.isDirectoryAt directory := by
  induction place using List.reverseRecOn generalizing entry with
  | nil => exact absurd rfl below
  | append_singleton start name ih =>
    have above := tree _ (mem_keys_of_entryAt (by simp) found)
    rw [← append_assoc, dropLast_concat] at above
    cases start with
    | nil => rwa [append_nil] at above
    | cons first start => exact ih (by simp) (entryAt_of_isDirectoryAt above)

/-- In a walk, depth first and by name, one place comes before another: below a directory on the way to
both, the name that leads to it is the smaller one. -/
def Precedes (place other : List String) : Prop :=
  ∃ common name next rest behind,
    place = common ++ name :: rest ∧ other = common ++ next :: behind ∧ compare name next = .lt

theorem Precedes.ne (precedes : Precedes place other) : place ≠ other := by
  obtain ⟨common, name, next, rest, behind, rfl, rfl, smaller⟩ := precedes
  intro same
  rw [(List.cons.inj (append_cancel_left same)).1, Std.compare_self] at smaller
  cases smaller

theorem Precedes.cons (precedes : Precedes place other) (name : String) : Precedes (name :: place) (name :: other) := by
  obtain ⟨common, first, next, rest, behind, rfl, rfl, smaller⟩ := precedes
  exact ⟨name :: common, first, next, rest, behind, rfl, rfl, smaller⟩

end ArmorPolicy.FileSystem
