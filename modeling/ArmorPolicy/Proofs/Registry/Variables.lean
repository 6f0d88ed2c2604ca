import ArmorPolicy.Registry
import ArmorPolicy.Proofs.Data.Sorted
import ArmorPolicy.Proofs.Rule.Reading
import Mathlib.Data.List.Nodup

/-!
# The variables of several files

The variables of a file and of the files that it includes can be merged exactly if no variable is
defined in two of these files and every variable to which values are added is defined in one of them.
What is merged is the union of all definitions and of all additions, in whatever order the files are
given.
-/

namespace ArmorPolicy

open Except Checked List SortedMap

variable {α : Type} {mode : AssignMode} {error : PolicyError} {filename name : String}

/-! ## Unions of assignments -/

namespace Bindings

/-- The bindings are the union of what is given: they bind the names that are given, and each to all
values that are given for it. -/
structure Unites (bindings : Bindings) (given : List (String × SortedSet String)) : Prop where
  names : ∀ name, bindings.contains name = true ↔ ∃ values, (name, values) ∈ given
  values : ∀ name value,
    (∃ united, bindings.get? name = some united ∧ value ∈ united.toList) ↔
      ∃ values, (name, values) ∈ given ∧ value ∈ values.toList

variable {bindings other : Bindings} {given more : List (String × SortedSet String)}

theorem contains_iff_exists : bindings.contains name ↔ ∃ united, (name, united) ∈ bindings.entries := by
  rw [SortedMap.contains, Option.isSome_iff_exists]
  simp only [get?_eq_some_iff]

theorem unites_entries (bindings : Bindings) : bindings.Unites bindings.entries where
  names _ := contains_iff_exists
  values _ _ := by simp only [get?_eq_some_iff]

theorem Unites.of_perm (unites : bindings.Unites given) (same : given.Perm more) : bindings.Unites more where
  names name := by simp only [unites.names, same.mem_iff]
  values name value := by simp only [unites.values, same.mem_iff]

theorem Unites.unique (first : bindings.Unites given) (second : other.Unites given) : bindings = other := by
  refine ext_get? fun name => ?_
  have names : bindings.contains name ↔ other.contains name :=
    (first.names name).trans (second.names name).symm
  have values : ∀ value, (∃ united, bindings.get? name = some united ∧ value ∈ united.toList) ↔
      ∃ united, other.get? name = some united ∧ value ∈ united.toList :=
    fun value => (first.values name value).trans (second.values name value).symm
  unfold SortedMap.contains at names
  cases mine : bindings.get? name with
  | none =>
    cases theirs : other.get? name with
    | none => rfl
    | some united => simp [mine, theirs] at names
  | some united =>
    cases theirs : other.get? name with
    | none => simp [mine, theirs] at names
    | some second =>
      simp only [mine, theirs, Option.some.injEq, exists_eq_left'] at values
      rw [SortedSet.ext_mem values]

theorem get?_extend {asked : String} {values : SortedSet String} :
    (bindings.extend name values).get? asked =
      if asked = name then some (((bindings.get? name).getD .empty).union values)
      else bindings.get? asked := by
  rw [extend, get?_alter]
  simp only [beq_iff_eq]

theorem mem_getD_get? {value : String} :
    value ∈ ((bindings.get? name).getD .empty).toList ↔
      ∃ united, bindings.get? name = some united ∧ value ∈ united.toList := by
  cases bindings.get? name with
  | none => simp [SortedSet.empty]
  | some united => simp

theorem Unites.extend (unites : bindings.Unites given) (name : String) (values : SortedSet String) :
    (bindings.extend name values).Unites (given ++ [(name, values)]) := by
  have parts : ∀ asked part, (asked, part) ∈ given ++ [(name, values)] ↔
      (asked, part) ∈ given ∨ asked = name ∧ part = values := by
    intro asked part
    rw [mem_append, mem_singleton, Prod.mk.injEq]
  constructor
  · intro asked
    rw [SortedMap.contains, get?_extend]
    simp only [parts]
    split
    next same => simp [same]
    next different =>
      simp only [different, false_and, or_false]
      exact unites.names asked
  · intro asked value
    simp only [get?_extend, parts]
    split
    next same =>
      subst same
      simp only [Option.some.injEq, exists_eq_left', SortedSet.mem_union, mem_getD_get?,
        unites.values, true_and, or_and_right, exists_or, exists_eq_left]
    next different =>
      simp only [different, false_and, or_false]
      exact unites.values asked value

def extendAll (bindings : Bindings) (parts : List (String × SortedSet String)) : Bindings :=
  parts.foldl (fun bindings part => bindings.extend part.1 part.2) bindings

theorem Unites.extendAll (unites : bindings.Unites given) (parts : List (String × SortedSet String)) :
    (bindings.extendAll parts).Unites (given ++ parts) := by
  induction parts generalizing bindings given with
  | nil => rwa [append_nil]
  | cons part parts ih =>
    rw [append_cons]
    exact ih (unites.extend part.1 part.2)

theorem unites_extendAll (parts : List (String × SortedSet String)) : (extendAll .empty parts).Unites parts :=
  (unites_entries .empty).extendAll parts

theorem Unites.flatten {members : List α} {united : α → Bindings}
    {parts : α → List (String × SortedSet String)}
    (unites : bindings.Unites (members.flatMap fun a => (united a).entries))
    (each : ∀ a ∈ members, (united a).Unites (parts a)) : bindings.Unites (members.flatMap parts) := by
  constructor
  · intro name
    rw [unites.names]
    simp only [mem_flatMap]
    constructor
    · rintro ⟨values, a, member, part⟩
      obtain ⟨given, among⟩ := ((each a member).names name).mp (contains_iff_exists.mpr ⟨values, part⟩)
      exact ⟨given, a, member, among⟩
    · rintro ⟨values, a, member, part⟩
      obtain ⟨united, among⟩ := contains_iff_exists.mp (((each a member).names name).mpr ⟨values, part⟩)
      exact ⟨united, a, member, among⟩
  · intro name value
    rw [unites.values]
    simp only [mem_flatMap]
    have one : ∀ a ∈ members, (∃ values, (name, values) ∈ (united a).entries ∧ value ∈ values.toList) ↔
        ∃ values, (name, values) ∈ parts a ∧ value ∈ values.toList := by
      intro a member
      rw [← (each a member).values, (unites_entries (united a)).values]
    constructor
    · rintro ⟨values, ⟨a, member, part⟩, inside⟩
      obtain ⟨given, among, also⟩ := (one a member).mp ⟨values, part, inside⟩
      exact ⟨given, ⟨a, member, among⟩, also⟩
    · rintro ⟨values, ⟨a, member, part⟩, inside⟩
      obtain ⟨given, among, also⟩ := (one a member).mpr ⟨values, part, inside⟩
      exact ⟨given, ⟨a, member, among⟩, also⟩

end Bindings

/-! ## One file -/

def MergedVariables.ofMode (merged : MergedVariables) : AssignMode → Bindings
  | .define => merged.defined
  | .append => merged.added

namespace Ruleset

def assigned (mode : AssignMode) (ruleset : Ruleset) : List (String × SortedSet String) :=
  (ruleset.assignments.filter fun assignment => assignment.mode = mode).map fun assignment =>
    (assignment.name, assignment.values)

theorem foldl_collect (assignments : List Assignment) (merged : MergedVariables) :
    assignments.foldl collect merged =
      { defined := merged.defined.extendAll ((assignments.filter fun assignment => assignment.mode = .define).map
          fun assignment => (assignment.name, assignment.values))
        added := merged.added.extendAll ((assignments.filter fun assignment => assignment.mode = .append).map
          fun assignment => (assignment.name, assignment.values)) } := by
  induction assignments generalizing merged with
  | nil => rfl
  | cons assignment assignments ih =>
    rw [foldl_cons, ih]
    cases mode : assignment.mode <;> simp [collect, mode, Bindings.extendAll]

theorem unites_mergedVariables (ruleset : Ruleset) (mode : AssignMode) :
    (ruleset.mergedVariables.ofMode mode).Unites (ruleset.assigned mode) := by
  rw [mergedVariables, foldl_collect]
  cases mode with
  | define => exact Bindings.unites_extendAll _
  | append => exact Bindings.unites_extendAll _

end Ruleset

namespace SourceFile

def assigned (mode : AssignMode) (file : SourceFile) : List (String × SortedSet String) :=
  file.preamble.ruleset.assigned mode

def Assigns (file : SourceFile) (mode : AssignMode) (name : String) : Prop :=
  ∃ assignment ∈ file.preamble.ruleset.assignments, assignment.mode = mode ∧ assignment.name = name

theorem unites_assigned (file : SourceFile) (mode : AssignMode) :
    (file.preamble.mergedVariables.ofMode mode).Unites (file.assigned mode) :=
  file.preamble.ruleset.unites_mergedVariables mode

theorem mem_keys_iff_assigns {file : SourceFile} :
    name ∈ (file.preamble.mergedVariables.ofMode mode).keys ↔ file.Assigns mode name := by
  have bound : name ∈ (file.preamble.mergedVariables.ofMode mode).keys ↔
      (file.preamble.mergedVariables.ofMode mode).contains name := by
    simp [SortedMap.keys, Bindings.contains_iff_exists]
  rw [bound, (file.unites_assigned mode).names]
  simp only [Assigns, assigned, Ruleset.assigned, mem_map, mem_filter, decide_eq_true_eq, Prod.mk.injEq]
  constructor
  · rintro ⟨_, assignment, ⟨member, sort⟩, rfl, rfl⟩
    exact ⟨assignment, member, sort, rfl⟩
  · rintro ⟨assignment, member, sort, rfl⟩
    exact ⟨_, assignment, ⟨member, sort⟩, rfl, rfl⟩

end SourceFile

/-! ## Several files -/

namespace Registry

variable {additions : Bindings} {definitions : Definitions}
  {entries : List (String × String × SortedSet String)} {entry : String × String × SortedSet String}

/-- Adds one definition, of which there may be none already. -/
def define (filename : String) (definitions : Definitions)
    (definition : String × String × SortedSet String) : Checked Definitions :=
  match definitions.get? definition.1 with
  | some (first, _) => conflict (.variableTwice filename definition.1 first definition.2.1)
  | none => .ok (definitions.insert definition.1 definition.2)

/-- Adds values to one variable, which has to be defined. -/
def append (filename : String) (definitions : Definitions) (additions : Bindings)
    (addition : String × String × SortedSet String) : Checked Bindings :=
  if definitions.contains addition.1 then .ok (additions.extend addition.1 addition.2.2)
  else conflict (.variableUndeclared filename addition.1 addition.2.1)

def labelled (filename : String) (bindings : Bindings) : List (String × String × SortedSet String) :=
  bindings.entries.map fun entry => (entry.1, filename, entry.2)

theorem foldlM_flatMap {β γ : Type} (step : γ → β → Checked γ) (parts : α → List β)
    (members : List α) (start : γ) :
    (members.flatMap parts).foldlM step start =
      members.foldlM (fun state a => (parts a).foldlM step state) start := by
  induction members generalizing start with
  | nil => rfl
  | cons a members ih =>
    rw [flatMap_cons, foldlM_append, foldlM_cons]
    exact congrArg _ (funext ih)

theorem addDefinitions_eq (filename : String) (sources : List (String × MergedVariables))
    (definitions : Definitions) :
    sources.foldlM (addDefinitions filename) definitions =
      (sources.flatMap fun source => labelled source.1 source.2.defined).foldlM (define filename)
        definitions := by
  rw [foldlM_flatMap]
  simp only [labelled, foldlM_map]
  rfl

theorem addAdditions_eq (filename : String) (definitions : Definitions)
    (sources : List (String × MergedVariables)) (additions : Bindings) :
    sources.foldlM (addAdditions filename definitions) additions =
      (sources.flatMap fun source => labelled source.1 source.2.added).foldlM
        (append filename definitions) additions := by
  rw [foldlM_flatMap]
  simp only [labelled, foldlM_map]
  rfl

theorem define_eq_ok {after : Definitions} :
    define filename definitions entry = .ok after ↔
      definitions.contains entry.1 = false ∧ after = definitions.insert entry.1 entry.2 := by
  unfold define SortedMap.contains
  cases definitions.get? entry.1 with
  | some known => exact iff_of_false nofun nofun
  | none => exact ⟨fun same => ⟨rfl, (ok.inj same).symm⟩, fun same => same.2 ▸ rfl⟩

theorem foldlM_define_eq_ok {after : Definitions} :
    entries.foldlM (define filename) definitions = .ok after ↔
      ((entries ++ definitions.entries).map Prod.fst).Nodup ∧ after = definitions.insertAll entries := by
  induction entries generalizing definitions with
  | nil =>
    constructor
    · intro same
      exact ⟨definitions.nodup_keys, (ok.inj same).symm⟩
    · rintro ⟨_, rfl⟩
      rfl
  | cons entry entries ih =>
    rw [foldlM_cons, bind_eq_ok]
    simp only [define_eq_ok]
    constructor
    · rintro ⟨_, ⟨absent, rfl⟩, rest⟩
      obtain ⟨distinct, rfl⟩ := ih.mp rest
      have perm : (entries ++ (definitions.insert entry.1 entry.2).entries).Perm
          (entry :: entries ++ definitions.entries) :=
        append_insert_perm (contains_eq_false_iff.mp absent)
      exact ⟨(perm.map Prod.fst).nodup_iff.mp distinct, rfl⟩
    · rintro ⟨distinct, rfl⟩
      have absent := absent_of_nodup distinct
      exact ⟨_, ⟨contains_eq_false_iff.mpr absent, rfl⟩,
        ih.mpr ⟨nodup_insert distinct, rfl⟩⟩

theorem append_eq_ok {after : Bindings} :
    append filename definitions additions entry = .ok after ↔
      definitions.contains entry.1 ∧ after = additions.extend entry.1 entry.2.2 := by
  unfold append
  split
  next known => exact ⟨fun same => ⟨known, (ok.inj same).symm⟩, fun same => same.2 ▸ rfl⟩
  next unknown => exact iff_of_false nofun fun same => unknown same.1

theorem foldlM_append_eq_ok {after : Bindings} :
    entries.foldlM (append filename definitions) additions = .ok after ↔
      (∀ entry ∈ entries, definitions.contains entry.1) ∧
        after = additions.extendAll (entries.map fun entry => (entry.1, entry.2.2)) := by
  induction entries generalizing additions with
  | nil =>
    constructor
    · intro same
      exact ⟨nofun, (ok.inj same).symm⟩
    · rintro ⟨_, rfl⟩
      rfl
  | cons entry entries ih =>
    rw [foldlM_cons, bind_eq_ok, forall_mem_cons]
    simp only [append_eq_ok]
    constructor
    · rintro ⟨_, ⟨known, rfl⟩, rest⟩
      obtain ⟨all, rfl⟩ := ih.mp rest
      exact ⟨⟨known, all⟩, rfl⟩
    · rintro ⟨⟨known, all⟩, rfl⟩
      exact ⟨_, ⟨known, rfl⟩, ih.mpr ⟨all, rfl⟩⟩

/-- The files whose variables are merged: a file, and the registered ones among those that it
includes. -/
def mergedFiles (registry : Registry) (main : SourceFile) (includes : List String) : List SourceFile :=
  main :: includes.filterMap registry.files.get?

def mergedSources (registry : Registry) (filename : String) (main : SourceFile)
    (includes : List String) : List (String × MergedVariables) :=
  (filename, main.preamble.mergedVariables) :: includes.filterMap fun name =>
    (registry.files.get? name).map fun file => (name, file.preamble.mergedVariables)

section Sources

variable (registry : Registry) (filename : String) (main : SourceFile) (includes : List String)

theorem map_snd_mergedSources :
    (registry.mergedSources filename main includes).map Prod.snd =
      (registry.mergedFiles main includes).map fun file => file.preamble.mergedVariables := by
  rw [mergedSources, mergedFiles, map_cons, map_cons, map_filterMap, map_filterMap]
  simp [Function.comp_def]

def mergedParts (mode : AssignMode) : List (String × String × SortedSet String) :=
  (registry.mergedSources filename main includes).flatMap fun source => labelled source.1 (source.2.ofMode mode)

theorem map_mergedParts (mode : AssignMode) :
    (registry.mergedParts filename main includes mode).map
        (fun entry => (entry.1, entry.2.2)) = (registry.mergedFiles main includes).flatMap fun file =>
        (file.preamble.mergedVariables.ofMode mode).entries := by
  have unlabelled : ∀ source : String × MergedVariables,
      (labelled source.1 (source.2.ofMode mode)).map (fun entry => (entry.1, entry.2.2)) =
        (source.2.ofMode mode).entries := by
    intro source
    simp [labelled, Function.comp_def]
  calc (registry.mergedParts filename main includes mode).map
          (fun entry => (entry.1, entry.2.2))
      = (registry.mergedSources filename main includes).flatMap fun source =>
          (source.2.ofMode mode).entries := by
        rw [mergedParts, map_flatMap]
        simp only [unlabelled]
    _ = ((registry.mergedSources filename main includes).map Prod.snd).flatMap fun merged =>
          (merged.ofMode mode).entries :=
        (flatMap_map Prod.snd (fun merged : MergedVariables => (merged.ofMode mode).entries) _).symm
    _ = (registry.mergedFiles main includes).flatMap fun file =>
          (file.preamble.mergedVariables.ofMode mode).entries := by
        rw [map_snd_mergedSources, flatMap_map]

theorem names_mergedParts (mode : AssignMode) :
    (registry.mergedParts filename main includes mode).map Prod.fst =
      (registry.mergedFiles main includes).flatMap fun file =>
        (file.preamble.mergedVariables.ofMode mode).keys := by
  have parts := congrArg (List.map Prod.fst) (map_mergedParts registry filename main includes mode)
  rw [map_map, map_flatMap] at parts
  exact parts

end Sources

variable {registry : Registry} (filename : String) {main : SourceFile} {includes : List String}

/-! ## When files can be merged -/

/-- No variable is defined in two of the files, and each one to which a file adds values is defined in
one of them. -/
structure Mergeable (files : List SourceFile) : Prop where
  definedOnce : files.Pairwise fun file other => ∀ name,
    ¬(file.Assigns .define name ∧ other.Assigns .define name)
  addedDefined : ∀ file ∈ files, ∀ name, file.Assigns .append name →
    ∃ other ∈ files, other.Assigns .define name

theorem mem_names_mergedParts :
    name ∈ (registry.mergedParts filename main includes mode).map Prod.fst ↔
      ∃ file ∈ registry.mergedFiles main includes, file.Assigns mode name := by
  rw [names_mergedParts, mem_flatMap]
  simp only [SourceFile.mem_keys_iff_assigns]

theorem nodup_names_mergedParts :
    ((registry.mergedParts filename main includes .define).map Prod.fst).Nodup ↔
      (registry.mergedFiles main includes).Pairwise fun file other => ∀ name,
        ¬(file.Assigns .define name ∧ other.Assigns .define name) := by
  have each : ∀ file ∈ registry.mergedFiles main includes,
      (file.preamble.mergedVariables.ofMode .define).keys.Nodup := fun file _ => nodup_keys _
  rw [names_mergedParts, nodup_flatMap, and_iff_right each]
  refine List.Pairwise.iff fun file other => ?_
  simp only [Function.onFun, List.Disjoint, SourceFile.mem_keys_iff_assigns, not_and]

variable {filename}

def Definitions.bindings (definitions : Definitions) : Bindings :=
  SortedMap.empty.insertAll (definitions.entries.map fun entry => (entry.1, entry.2.2))

theorem mergedVariables_eq (found : registry.files.get? filename = some main) :
    registry.mergedVariables filename includes = (do
      let definitions ← (registry.mergedParts filename main includes .define).foldlM (define filename) .empty
      let added ← (registry.mergedParts filename main includes .append).foldlM (append filename definitions) .empty
      return { defined := Definitions.bindings definitions, added }) := by
  unfold mergedVariables
  rw [listed, found]
  change (registry.mergedSources filename main includes).foldlM (addDefinitions filename) .empty >>= _ = _
  rw [addDefinitions_eq]
  refine congrArg _ (funext fun definitions => ?_)
  change (registry.mergedSources filename main includes).foldlM (addAdditions filename definitions) .empty
    >>= _ = _
  rw [addAdditions_eq]
  refine congrArg _ (funext fun added => ?_)
  rw [Definitions.bindings, insertAll, foldl_map]

theorem unites_bindings_insertAll (distinct : (entries.map Prod.fst).Nodup) :
    (Definitions.bindings (empty.insertAll entries)).Unites
      (entries.map fun entry => (entry.1, entry.2.2)) := by
  have kept := (insertAll_empty_perm distinct).map fun entry => (entry.1, entry.2.2)
  have unlabelled : (((empty.insertAll entries).entries.map fun entry =>
      (entry.1, entry.2.2)).map Prod.fst).Nodup := by
    rw [map_map]
    exact nodup_keys (empty.insertAll entries)
  exact (Bindings.unites_entries _).of_perm ((insertAll_empty_perm unlabelled).trans kept)

theorem contains_insertAll (distinct : (entries.map Prod.fst).Nodup) :
    (SortedMap.empty.insertAll entries).contains name ↔ name ∈ entries.map Prod.fst := by
  rw [SortedMap.contains, Option.isSome_iff_exists]
  simp only [get?_eq_some_iff, (insertAll_empty_perm distinct).mem_iff]
  simp

theorem unites_of_unites_mergedParts {bindings : Bindings}
    (unites : bindings.Unites ((registry.mergedParts filename main includes mode).map
      fun entry => (entry.1, entry.2.2))) :
    bindings.Unites ((registry.mergedFiles main includes).flatMap (SourceFile.assigned mode)) := by
  rw [map_mergedParts] at unites
  exact unites.flatten fun file _ => file.unites_assigned mode

theorem mergeable_iff (filename : String) :
    Mergeable (registry.mergedFiles main includes) ↔
      ((registry.mergedParts filename main includes .define).map Prod.fst).Nodup ∧
        ∀ entry ∈ registry.mergedParts filename main includes .append,
          (empty.insertAll (registry.mergedParts filename main includes .define)).contains entry.1 := by
  have added : ∀ name, (∃ file ∈ registry.mergedFiles main includes, file.Assigns .append name) ↔
      ∃ entry ∈ registry.mergedParts filename main includes .append, entry.1 = name := by
    intro name
    rw [← mem_names_mergedParts filename, mem_map]
  constructor
  · intro mergeable
    have distinct := (nodup_names_mergedParts filename).mpr mergeable.definedOnce
    refine ⟨distinct, fun entry member => ?_⟩
    rw [contains_insertAll distinct, mem_names_mergedParts]
    obtain ⟨file, among, adds⟩ := (added entry.1).mpr ⟨entry, member, rfl⟩
    exact mergeable.addedDefined file among entry.1 adds
  · rintro ⟨distinct, known⟩
    refine ⟨(nodup_names_mergedParts filename).mp distinct, fun file among name adds => ?_⟩
    obtain ⟨entry, member, rfl⟩ := (added name).mp ⟨file, among, adds⟩
    rw [← mem_names_mergedParts filename, ← contains_insertAll distinct]
    exact known entry member

theorem unites_definitions (distinct :
      ((registry.mergedParts filename main includes .define).map Prod.fst).Nodup) :
    (Definitions.bindings (empty.insertAll (registry.mergedParts filename main includes .define))).Unites
        ((registry.mergedFiles main includes).flatMap (SourceFile.assigned .define)) :=
  unites_of_unites_mergedParts (unites_bindings_insertAll distinct)

theorem unites_additions (filename : String) :
    (Bindings.extendAll .empty ((registry.mergedParts filename main includes .append).map
      fun entry => (entry.1, entry.2.2))).Unites
      ((registry.mergedFiles main includes).flatMap (SourceFile.assigned .append)) :=
  unites_of_unites_mergedParts (Bindings.unites_extendAll _)

/-- Merging succeeds exactly if the files can be merged, and then gives the unions of what they
assign. -/
theorem mergedVariables_eq_ok (found : registry.files.get? filename = some main) {merged : MergedVariables} :
    registry.mergedVariables filename includes = .ok merged ↔
      Mergeable (registry.mergedFiles main includes) ∧
        merged.defined.Unites ((registry.mergedFiles main includes).flatMap (SourceFile.assigned .define)) ∧
        merged.added.Unites ((registry.mergedFiles main includes).flatMap (SourceFile.assigned .append)) := by
  have nothing : (empty : Definitions).entries = [] := rfl
  rw [mergedVariables_eq found, mergeable_iff filename]
  simp only [bind_eq_ok, foldlM_define_eq_ok, foldlM_append_eq_ok, nothing, append_nil]
  constructor
  · rintro ⟨_, ⟨distinct, rfl⟩, _, ⟨known, rfl⟩, ⟨⟩⟩
    exact ⟨⟨distinct, known⟩, unites_definitions distinct, unites_additions filename⟩
  · rintro ⟨⟨distinct, known⟩, defined, added⟩
    refine ⟨_, ⟨distinct, rfl⟩, _, ⟨known, rfl⟩, ?_⟩
    cases merged
    cases defined.unique (unites_definitions distinct)
    cases added.unique (unites_additions filename)
    rfl

/-! ## Failures -/

theorem exists_clash_of_define (failure : define filename definitions entry = .error error) :
    ∃ clash, error = .clash clash := by
  unfold define at failure
  split at failure
  · cases failure
    exact ⟨_, rfl⟩
  · cases failure

theorem exists_clash_of_append (failure : append filename definitions additions entry = .error error) :
    ∃ clash, error = .clash clash := by
  unfold append at failure
  split at failure
  · cases failure
  · cases failure
    exact ⟨_, rfl⟩

theorem exists_clash_of_foldlM {β : Type} {step : β → α → Checked β}
    (one : ∀ {b a error}, step b a = .error error → ∃ clash, error = .clash clash)
    {members : List α} {start : β} (failure : members.foldlM step start = .error error) :
    ∃ clash, error = .clash clash := by
  induction members generalizing start with
  | nil => cases failure
  | cons a members ih =>
    rw [foldlM_cons] at failure
    rcases bind_eq_error.mp failure with here | ⟨_, _, later⟩
    · exact one here
    · exact ih later

theorem exists_clash_of_mergedVariables (found : registry.files.get? filename = some main)
    (failure : registry.mergedVariables filename includes = .error error) :
    ∃ clash, error = .clash clash := by
  rw [mergedVariables_eq found] at failure
  rcases bind_eq_error.mp failure with defining | ⟨definitions, _, failure⟩
  · exact exists_clash_of_foldlM exists_clash_of_define defining
  rcases bind_eq_error.mp failure with adding | ⟨_, _, ⟨⟩⟩
  exact exists_clash_of_foldlM exists_clash_of_append adding

theorem exists_mergedVariables (found : registry.files.get? filename = some main)
    (mergeable : Mergeable (registry.mergedFiles main includes)) :
    ∃ merged, registry.mergedVariables filename includes = .ok merged := by
  have distinct := ((mergeable_iff filename).mp mergeable).1
  exact ⟨⟨_, _⟩, (mergedVariables_eq_ok found).mpr
    ⟨mergeable, unites_definitions distinct, unites_additions filename⟩⟩

theorem exists_clash_of_not_mergeable (found : registry.files.get? filename = some main)
    (contradictory : ¬Mergeable (registry.mergedFiles main includes)) :
    ∃ clash, registry.mergedVariables filename includes = .error (.clash clash) := by
  cases result : registry.mergedVariables filename includes with
  | ok merged => exact absurd ((mergedVariables_eq_ok found).mp result).1 contradictory
  | error error =>
    obtain ⟨clash, rfl⟩ := exists_clash_of_mergedVariables found result
    exact ⟨clash, rfl⟩

/-! ## The order of the includes -/

theorem Mergeable.of_perm {files others : List SourceFile} (mergeable : Mergeable files)
    (same : files.Perm others) : Mergeable others where
  definedOnce := by
    refine (same.pairwise_iff ?_).mp mergeable.definedOnce
    intro file other apart name both
    exact apart name both.symm
  addedDefined file among name adds := by
    obtain ⟨other, member, defines⟩ := mergeable.addedDefined file (same.mem_iff.mpr among) name adds
    exact ⟨other, same.mem_iff.mp member, defines⟩

theorem mergedFiles_perm {others : List String} (same : includes.Perm others) :
    (registry.mergedFiles main includes).Perm (registry.mergedFiles main others) :=
  (same.filterMap registry.files.get?).cons main

/-- The variables of a file and of the registered files among its includes, with repetitions, are merged
exactly if no variable is defined in two of them and each one to which values are added is defined in
one.  The result has the unions of their definitions and of their additions; otherwise two registrations
contradict each other.  So the order of the includes changes neither whether the variables are merged
nor what they are merged into. -/
theorem mergedVariables_exact (found : registry.files.get? filename = some main)
    (includes : List String) :
    ((∃ merged, registry.mergedVariables filename includes = .ok merged) ↔
      Mergeable (registry.mergedFiles main includes)) ∧
    (∀ merged, registry.mergedVariables filename includes = .ok merged →
      merged.defined.Unites
          ((registry.mergedFiles main includes).flatMap (SourceFile.assigned .define)) ∧
        merged.added.Unites
          ((registry.mergedFiles main includes).flatMap (SourceFile.assigned .append))) ∧
    (¬Mergeable (registry.mergedFiles main includes) →
      ∃ clash, registry.mergedVariables filename includes = .error (.clash clash)) ∧
    ∀ others, includes.Perm others →
      (∃ merged, registry.mergedVariables filename includes = .ok merged ∧
          registry.mergedVariables filename others = .ok merged) ∨
        ∃ clash other, registry.mergedVariables filename includes = .error (.clash clash) ∧
          registry.mergedVariables filename others = .error (.clash other) := by
  refine ⟨⟨?_, exists_mergedVariables found⟩, fun merged success => ?_,
    exists_clash_of_not_mergeable found, fun others same => ?_⟩
  · rintro ⟨merged, success⟩
    exact ((mergedVariables_eq_ok found).mp success).1
  · exact ((mergedVariables_eq_ok found).mp success).2
  have files : (registry.mergedFiles main includes).Perm (registry.mergedFiles main others) :=
    mergedFiles_perm same
  by_cases mergeable : Mergeable (registry.mergedFiles main includes)
  · left
    obtain ⟨merged, success⟩ := exists_mergedVariables found mergeable
    obtain ⟨_, defined, added⟩ := (mergedVariables_eq_ok found).mp success
    exact ⟨merged, success, (mergedVariables_eq_ok found).mpr ⟨mergeable.of_perm files,
      defined.of_perm (files.flatMap_right _), added.of_perm (files.flatMap_right _)⟩⟩
  · right
    obtain ⟨clash, failure⟩ := exists_clash_of_not_mergeable found mergeable
    obtain ⟨other, failureToo⟩ := exists_clash_of_not_mergeable found fun mergeableToo =>
      mergeable (mergeableToo.of_perm files.symm)
    exact ⟨clash, other, failure, failureToo⟩

/-- A file that assigns values to one variable. -/
def assigning (filename : String) (mode : AssignMode) (values : List String) : SourceFile where
  filename := filename
  preamble := ⟨⟨[⟨{}, .assignment { name := "@\x7bx\x7d", mode, values := .ofList values }⟩]⟩⟩

/-- The variable is defined in one file and extended in two others. -/
def tunables : Registry :=
  ([assigning "main" .append ["/main"], assigning "global" .define ["/a"],
    assigning "extra" .append ["/b"]].forM Registering.addFile |>.outcome {}).2

/-- Additions come before and behind the definition, and one include is not registered. -/
theorem mergedVariables_exact_tunables :
    tunables.files.get? "main" = some (assigning "main" .append ["/main"]) ∧
      ["extra", "missing", "global"].Perm ["global", "extra", "missing"] ∧
      ∃ merged, tunables.mergedVariables "main" ["extra", "missing", "global"] = .ok merged ∧
        tunables.mergedVariables "main" ["global", "extra", "missing"] = .ok merged ∧
        merged.added.get? "@\x7bx\x7d" = some (.ofList ["/main", "/b"]) := by
  have found : tunables.files.get? "main" = some (assigning "main" .append ["/main"]) := by
    decide +kernel
  have perm : ["extra", "missing", "global"].Perm ["global", "extra", "missing"] := by decide +kernel
  have added : (tunables.mergedVariables "main" ["extra", "missing", "global"]).map
      (fun merged => merged.added.get? "@\x7bx\x7d") = .ok (some (.ofList ["/main", "/b"])) := by
    decide +kernel
  rcases (mergedVariables_exact found _).2.2.2 _ perm with ⟨merged, first, second⟩ | ⟨_, _, failure, _⟩
  · rw [first] at added
    exact ⟨found, perm, merged, first, second, ok.inj added⟩
  · rw [failure] at added
    cases added

end Registry

end ArmorPolicy
