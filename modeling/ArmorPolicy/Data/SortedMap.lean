/-!
# Finite maps as lists with strictly increasing keys

A map is the list of its entries in increasing order of their keys, with one entry for each key.
-/

namespace ArmorPolicy

universe u v w

variable {α : Type u} {β : Type v} [Ord α]

/-- Sets the value of `key` in a list of entries with increasing keys: `f` makes it from the value
that was there. -/
def alterSorted (key : α) (f : Option β → β) : List (α × β) → List (α × β)
  | [] => [(key, f none)]
  | entry :: rest =>
    match compare key entry.1 with
    | .lt => (key, f none) :: entry :: rest
    | .eq => (entry.1, f (some entry.2)) :: rest
    | .gt => entry :: alterSorted key f rest

theorem key_alterSorted [Std.LawfulEqOrd α] {key k : α} {f : Option β → β} {l : List (α × β)}
    (present : ∃ v, (k, v) ∈ alterSorted key f l) : k = key ∨ ∃ v, (k, v) ∈ l := by
  induction l with
  | nil =>
    obtain ⟨v, hv⟩ := present
    simp only [alterSorted, List.mem_singleton, Prod.mk.injEq] at hv
    exact Or.inl hv.1
  | cons entry rest ih =>
    obtain ⟨v, hv⟩ := present
    simp only [alterSorted] at hv
    split at hv
    next =>
      rcases List.mem_cons.mp hv with same | hv
      · exact Or.inl (Prod.mk.inj same).1
      · exact Or.inr ⟨v, hv⟩
    next same =>
      rcases List.mem_cons.mp hv with here | hv
      · exact Or.inl ((Prod.mk.inj here).1.trans (Std.LawfulEqOrd.eq_of_compare same).symm)
      · exact Or.inr ⟨v, List.mem_cons_of_mem _ hv⟩
    next =>
      rcases List.mem_cons.mp hv with here | hv
      · exact Or.inr ⟨v, here ▸ List.mem_cons_self⟩
      · rcases ih ⟨v, hv⟩ with here | ⟨w, hw⟩
        · exact Or.inl here
        · exact Or.inr ⟨w, List.mem_cons_of_mem _ hw⟩

theorem pairwise_alterSorted [Std.TransOrd α] [Std.LawfulEqOrd α] {key : α} {f : Option β → β}
    {l : List (α × β)} (sorted : l.Pairwise fun x y => compare x.1 y.1 = .lt) :
    (alterSorted key f l).Pairwise fun x y => compare x.1 y.1 = .lt := by
  induction l with
  | nil => simp [alterSorted]
  | cons entry rest ih =>
    obtain ⟨above, sortedRest⟩ := List.pairwise_cons.mp sorted
    simp only [alterSorted]
    split
    next less =>
      refine List.pairwise_cons.mpr ⟨fun x hx => ?_, sorted⟩
      rcases List.mem_cons.mp hx with rfl | hx
      · exact less
      · exact Std.TransCmp.lt_trans less (above x hx)
    next => exact List.pairwise_cons.mpr ⟨above, sortedRest⟩
    next greater =>
      refine List.pairwise_cons.mpr ⟨fun x hx => ?_, ih sortedRest⟩
      rcases key_alterSorted (k := x.1) ⟨x.2, hx⟩ with here | ⟨v, hv⟩
      · exact here ▸ Std.OrientedCmp.gt_iff_lt.mp greater
      · exact above (x.1, v) hv

/-- A finite map, held as its entries in increasing order of keys. -/
structure SortedMap (α : Type u) (β : Type v) [Ord α] where
  entries : List (α × β)
  sorted : entries.Pairwise fun x y => compare x.1 y.1 = .lt

namespace SortedMap

theorem ext_entries {m n : SortedMap α β} (same : m.entries = n.entries) : m = n := by
  cases m
  cases n
  cases same
  rfl

instance [DecidableEq α] [DecidableEq β] : DecidableEq (SortedMap α β) := fun m n =>
  if same : m.entries = n.entries then isTrue (ext_entries same)
  else isFalse fun equal => same (congrArg entries equal)

def empty : SortedMap α β := ⟨[], List.Pairwise.nil⟩

instance : Inhabited (SortedMap α β) := ⟨empty⟩

def isEmpty (m : SortedMap α β) : Bool := m.entries.isEmpty

def size (m : SortedMap α β) : Nat := m.entries.length

def keys (m : SortedMap α β) : List α := m.entries.map Prod.fst

def values (m : SortedMap α β) : List β := m.entries.map Prod.snd

def get? [BEq α] (m : SortedMap α β) (key : α) : Option β := m.entries.lookup key

def contains [BEq α] (m : SortedMap α β) (key : α) : Bool := (m.get? key).isSome

def filterKeys (p : α → Bool) (m : SortedMap α β) : SortedMap α β :=
  ⟨m.entries.filter fun entry => p entry.1, m.sorted.filter _⟩

def mapValues {γ : Type w} (f : β → γ) (m : SortedMap α β) : SortedMap α γ :=
  ⟨m.entries.map fun entry => (entry.1, f entry.2), m.sorted.map _ fun _ _ less => less⟩

variable [Std.TransOrd α] [Std.LawfulEqOrd α]

/-- Sets the value of one key from the value that was there. -/
def alter (m : SortedMap α β) (key : α) (f : Option β → β) : SortedMap α β :=
  ⟨alterSorted key f m.entries, pairwise_alterSorted m.sorted⟩

def insert (m : SortedMap α β) (key : α) (value : β) : SortedMap α β :=
  m.alter key fun _ => value

end SortedMap

end ArmorPolicy
