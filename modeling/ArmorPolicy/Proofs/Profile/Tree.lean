import ArmorPolicy.Profile.Tree
import ArmorPolicy.Proofs.Data.Sorted
import Mathlib.Data.List.Basic

/-!
# Profiles as trees

A profile is known by its scope and the map of what is inside of it, and what holds of a profile as soon
as it holds of all that is inside of it holds of every profile.
-/

namespace ArmorPolicy

open List

variable {profile : Profile} {change : Scope → Scope} {α : Type}

/-! ## Nests and their entries -/

namespace Nest

theorem entries_ofEntries (entries : List (String × Profile)) (sorted : (ofEntries entries).IsSorted) :
    (ofEntries entries).entries sorted = entries := by
  induction entries with
  | nil => rfl
  | cons entry rest ih => exact congrArg (entry :: ·) (ih sorted.2.2)

theorem ofEntries_entries (nest : Nest) (sorted : nest.IsSorted) : ofEntries (nest.entries sorted) = nest := by
  induction nest with
  | empty => rfl
  | child name scope inner rest _ ih => exact congrArg (child name scope inner) (ih sorted.2.2)

theorem fold_eq (f : Scope → List (Scope × α) → α) (nest : Nest) (sorted : nest.IsSorted) :
    nest.fold f = (nest.entries sorted).map fun entry => (entry.2.scope, entry.2.fold f) := by
  induction nest with
  | empty => rfl
  | child name scope inner rest _ ih => exact congrArg (_ :: ·) (ih sorted.2.2)

def map (change : Scope → Scope) : Nest → Nest
  | .empty => .empty
  | .child name scope inner rest => .child name (change scope) (inner.map change) (rest.map change)

theorem names_map (change : Scope → Scope) (nest : Nest) : (nest.map change).names = nest.names := by
  induction nest with
  | empty => rfl
  | child name scope inner rest _ ih => exact congrArg (name :: ·) ih

theorem IsSorted.map {nest : Nest} (sorted : nest.IsSorted) (change : Scope → Scope) :
    (nest.map change).IsSorted := by
  induction nest with
  | empty => trivial
  | child name scope inner rest ihInner ihRest =>
    refine ⟨?_, ihInner sorted.2.1, ihRest sorted.2.2⟩
    rw [names_map]
    exact sorted.1

theorem fold_map {f : Scope → List (Scope × α) → α}
    (keeps : ∀ scope children, f (change scope) (children.map fun child => (change child.1, child.2)) = f scope children)
    (nest : Nest) : (nest.map change).fold f = (nest.fold f).map fun child => (change child.1, child.2) := by
  induction nest with
  | empty => rfl
  | child name scope inner rest ihInner ihRest =>
    rw [Nest.map, fold, ihInner, keeps, ihRest]
    rfl

end Nest

/-! ## Profiles and what is inside -/

namespace Profile

theorem ext_inner {other : Profile} (scope : profile.scope = other.scope) (inner : profile.inner = other.inner) :
    profile = other := by
  rcases profile with ⟨_, nest, sorted⟩
  rcases other with ⟨_, others, othersSorted⟩
  obtain rfl : nest = others := by
    rw [← nest.ofEntries_entries sorted, ← others.ofEntries_entries othersSorted]
    exact congrArg (fun map => Nest.ofEntries map.entries) inner
  obtain rfl : _ = _ := scope
  rfl

@[simp]
theorem scope_withInner (profile : Profile) (inner : SortedMap String Profile) :
    (profile.withInner inner).scope = profile.scope := rfl

@[simp]
theorem inner_withInner (profile : Profile) (inner : SortedMap String Profile) :
    (profile.withInner inner).inner = inner :=
  SortedMap.ext_entries (Nest.entries_ofEntries _ _)

theorem inner_mk (scope : Scope) : inner { scope } = .empty := rfl

theorem eq_of_inner_eq_empty (alone : profile.inner = .empty) : profile = { scope := profile.scope } :=
  ext_inner rfl alone

/-- What holds of a profile as soon as it holds of all that is inside of it holds of every profile. -/
theorem induct {motive : Profile → Prop}
    (step : ∀ profile, (∀ child ∈ profile.inner.values, motive child) → motive profile) (profile : Profile) :
    motive profile := by
  have inside : ∀ (nest : Nest) (sorted : nest.IsSorted), ∀ entry ∈ nest.entries sorted, motive entry.2 := by
    intro nest
    induction nest with
    | empty => exact fun _ _ impossible => nomatch impossible
    | child name scope inner rest ihInner ihRest =>
      intro sorted entry member
      rcases mem_cons.mp member with rfl | later
      · refine step _ fun child held => ?_
        obtain ⟨entry, among, rfl⟩ := mem_map.mp held
        exact ihInner sorted.2.1 entry among
      · exact ihRest sorted.2.2 entry later
  refine step profile fun child held => ?_
  obtain ⟨entry, among, rfl⟩ := mem_map.mp held
  exact inside profile.nest profile.sorted entry among

theorem fold_eq (f : Scope → List (Scope × α) → α) (profile : Profile) :
    profile.fold f = f profile.scope (profile.inner.values.map fun child => (child.scope, child.fold f)) := by
  rw [fold, Nest.fold_eq f profile.nest profile.sorted, SortedMap.values, map_map]
  rfl

theorem values_children (profile : Profile) : profile.children.values = profile.inner.values.map scope :=
  SortedMap.values_mapValues scope profile.inner

/-! ## All scopes of a profile -/

def scopes (profile : Profile) : List Scope := profile.fold fun scope children => scope :: children.flatMap Prod.snd

theorem scopes_eq (profile : Profile) : profile.scopes = profile.scope :: profile.inner.values.flatMap scopes := by
  rw [scopes, fold_eq, flatMap_map]
  rfl

theorem scopes_mk (scope : Scope) : scopes { scope } = [scope] := rfl

theorem scopes_eq_of_alone (alone : ∀ child ∈ profile.inner.values, child.inner = .empty) :
    profile.scopes = profile.scope :: profile.inner.values.map scope := by
  have each : ∀ child ∈ profile.inner.values, child.scopes = [child.scope] := by
    intro child member
    rw [scopes_eq, alone child member]
    rfl
  rw [scopes_eq, flatMap_congr each, map_eq_flatMap]

theorem scope_mem_scopes (profile : Profile) : profile.scope ∈ profile.scopes := by
  rw [scopes_eq]
  exact mem_cons_self

theorem scopes_of_mem {child : Profile} (member : child ∈ profile.inner.values) : child.scopes ⊆ profile.scopes := by
  rw [scopes_eq profile]
  exact fun scope among => mem_cons_of_mem _ (mem_flatMap_of_mem member among)

def mapScopes (change : Scope → Scope) (profile : Profile) : Profile :=
  ⟨change profile.scope, profile.nest.map change, profile.sorted.map change⟩

theorem inner_mapScopes (change : Scope → Scope) (profile : Profile) :
    (profile.mapScopes change).inner = profile.inner.mapValues (mapScopes change) := by
  refine SortedMap.ext_entries ?_
  have each : ∀ (nest : Nest) (sorted : nest.IsSorted), (nest.map change).entries (sorted.map change) =
      (nest.entries sorted).map fun entry => (entry.1, entry.2.mapScopes change) := by
    intro nest
    induction nest with
    | empty => exact fun _ => rfl
    | child name scope inner rest _ ih => exact fun sorted => congrArg (_ :: ·) (ih sorted.2.2)
  exact each profile.nest profile.sorted

theorem fold_mapScopes {f : Scope → List (Scope × α) → α}
    (keeps : ∀ scope children, f (change scope) (children.map fun child => (change child.1, child.2)) = f scope children)
    (profile : Profile) : (profile.mapScopes change).fold f = profile.fold f := by
  rw [fold, mapScopes, Nest.fold_map keeps, keeps]
  rfl

/-! ## Adding -/

theorem addInner_eq_ok_iff {child result : Profile} :
    profile.addInner child = .ok result ↔
      profile.scope.kind = .profile ∧ profile.inner.contains child.scope.name = false ∧
        result = profile.withInner (profile.inner.insert child.scope.name
          { child with scope := { child.scope with parent := some profile.scope.name } }) := by
  rw [eq_comm (a := result)]
  unfold addInner
  split
  · simp [*, refuse]
  · split <;> simp_all [refuse]

/-- All scopes of the profile have the property. -/
def Every (P : Scope → Prop) (profile : Profile) : Prop := ∀ scope ∈ profile.scopes, P scope

namespace Every

variable {P : Scope → Prop} {child filled : Profile} {scope : Scope}

theorem ofScope (own : P scope) : Every P { scope } := by
  intro other member
  rw [scopes_mk, mem_singleton] at member
  rwa [member]

theorem own (every : profile.Every P) : P profile.scope := every _ profile.scope_mem_scopes

theorem withScope (every : profile.Every P) (own : P scope) : Every P { profile with scope } := by
  intro other member
  rw [scopes_eq] at member
  rcases List.mem_cons.mp member with rfl | among
  · exact own
  · refine every other ?_
    rw [scopes_eq]
    exact .tail _ among

theorem insert (every : profile.Every P) {name : String} (fresh : profile.inner.contains name = false)
    (inner : child.Every P) : Every P (profile.withInner (profile.inner.insert name child)) := by
  intro scope member
  rw [scopes_eq, inner_withInner] at member
  rcases List.mem_cons.mp member with rfl | among
  · exact every.own
  · obtain ⟨other, held, inside⟩ := mem_flatMap.mp among
    rcases (SortedMap.mem_values_insert (SortedMap.contains_eq_false_iff.mp fresh)).mp held with rfl | known
    · exact inner scope inside
    · exact every scope (scopes_of_mem known inside)

theorem addInner (every : profile.Every P) (inner : child.Every P)
    (adopted : P { child.scope with parent := some profile.scope.name })
    (added : profile.addInner child = .ok filled) : filled.Every P := by
  obtain ⟨_, fresh, rfl⟩ := addInner_eq_ok_iff.mp added
  exact every.insert fresh (inner.withScope adopted)

end Every

end Profile

end ArmorPolicy
