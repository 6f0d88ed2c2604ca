import ArmorPolicy.Data.SortedMap
import ArmorPolicy.Profile.Scope

/-!
# Profiles

A profile is a scope that may hold child profiles and hats.  These are scopes of their own, which might
hold further ones; what bounds the nesting are the checks that are made when a scope is added.
-/

namespace ArmorPolicy

/-- Scopes side by side, each under a name and with the scopes inside of it. -/
inductive Nest where
  | empty
  | child (name : String) (scope : Scope) (inner rest : Nest)
  deriving DecidableEq

namespace Nest

def names : Nest → List String
  | .empty => []
  | .child name _ _ rest => name :: rest.names

/-- The names increase, here and further inside. -/
def IsSorted : Nest → Prop
  | .empty => True
  | .child name _ inner rest =>
    (∀ other ∈ rest.names, compare name other = .lt) ∧ inner.IsSorted ∧ rest.IsSorted

/-- Combines, for each scope, what it holds with what comes from the scopes inside of it. -/
def fold {α : Type} (f : Scope → List (Scope × α) → α) : Nest → List (Scope × α)
  | .empty => []
  | .child _ scope inner rest => (scope, f scope (inner.fold f)) :: rest.fold f

end Nest

/-- A scope with the scopes that belong to it. -/
structure Profile where
  scope : Scope
  nest : Nest := .empty
  sorted : nest.IsSorted := by trivial
  deriving DecidableEq

namespace Nest

def entries : (nest : Nest) → nest.IsSorted → List (String × Profile)
  | .empty, _ => []
  | .child name scope inner rest, sorted =>
    (name, { scope, nest := inner, sorted := sorted.2.1 }) :: rest.entries sorted.2.2

def ofEntries : List (String × Profile) → Nest
  | [] => .empty
  | (name, profile) :: rest => .child name profile.scope profile.nest (ofEntries rest)

theorem mem_names_of_mem_entries {nest : Nest} {sorted : nest.IsSorted} {entry : String × Profile}
    (member : entry ∈ nest.entries sorted) : entry.1 ∈ nest.names := by
  induction nest with
  | empty => cases member
  | child name scope inner rest _ ih =>
    rcases List.mem_cons.mp member with rfl | later
    · exact List.mem_cons_self
    · exact List.mem_cons_of_mem name (ih later)

theorem pairwise_entries (nest : Nest) (sorted : nest.IsSorted) :
    (nest.entries sorted).Pairwise fun x y => compare x.1 y.1 = .lt := by
  induction nest with
  | empty => exact .nil
  | child name scope inner rest _ ih =>
    refine List.pairwise_cons.mpr ⟨fun entry member => ?_, ih sorted.2.2⟩
    exact sorted.1 entry.1 (mem_names_of_mem_entries member)

theorem names_ofEntries (entries : List (String × Profile)) :
    (ofEntries entries).names = entries.map Prod.fst := by
  induction entries with
  | nil => rfl
  | cons entry entries ih => exact congrArg (entry.1 :: ·) ih

theorem isSorted_ofEntries {entries : List (String × Profile)}
    (sorted : entries.Pairwise fun x y => compare x.1 y.1 = .lt) : (ofEntries entries).IsSorted := by
  induction entries with
  | nil => trivial
  | cons entry entries ih =>
    obtain ⟨above, rest⟩ := List.pairwise_cons.mp sorted
    refine ⟨fun other member => ?_, entry.2.sorted, ih rest⟩
    rw [names_ofEntries] at member
    obtain ⟨later, among, rfl⟩ := List.mem_map.mp member
    exact above later among

end Nest

namespace Profile

/-- What is directly inside, by name. -/
def inner (profile : Profile) : SortedMap String Profile :=
  ⟨profile.nest.entries profile.sorted, profile.nest.pairwise_entries profile.sorted⟩

def withInner (profile : Profile) (inner : SortedMap String Profile) : Profile :=
  { profile with nest := .ofEntries inner.entries, sorted := Nest.isSorted_ofEntries inner.sorted }

def children (profile : Profile) : SortedMap String Scope := profile.inner.mapValues scope

/-- Adds a scope with what is inside of it.  Only a profile has children, and each under a name of
its own. -/
def addInner (profile child : Profile) : Checked Profile :=
  if profile.scope.kind ≠ .profile then
    refuse (.childInsideChild profile.scope.fullName child.scope.name)
  else if profile.inner.contains child.scope.name then
    refuse (.duplicateHat child.scope.name profile.scope.name)
  else
    let child := { child with scope := { child.scope with parent := some profile.scope.name } }
    .ok (profile.withInner (profile.inner.insert child.scope.name child))

def addChild (profile : Profile) (child : Scope) : Checked Profile :=
  profile.addInner { scope := child }

/-- Adds an empty hat, unless there is a child of that name. -/
def ensureHat (profile : Profile) (name : String) : Profile :=
  if profile.inner.contains name then profile
  else
    let hat : Scope :=
      { name, kind := .hat, filename := profile.scope.filename, parent := some profile.scope.name }
    profile.withInner (profile.inner.insert name { scope := hat })

def mapScope (f : Scope → Scope) (profile : Profile) : Profile :=
  { profile with scope := f profile.scope }

def dedup (profile : Profile) (included : Option Ruleset) : Profile × DedupStats :=
  let (scope, stats) := profile.scope.dedup included
  ({ profile with scope }, stats)

def fold {α : Type} (f : Scope → List (Scope × α) → α) (profile : Profile) : α :=
  f profile.scope (profile.nest.fold f)

def lines (layout : Layout) (profile : Profile) (depth : Nat) : List String :=
  profile.fold (Scope.linesAround layout) depth

end Profile

end ArmorPolicy
