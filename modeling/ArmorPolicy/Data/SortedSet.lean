/-!
# Finite sets as strictly increasing lists

A set is the strictly increasing list of its members, so two sets with the same members are equal.
The order is the one given by `compare`; for strings and characters it is the order of code points.
-/

namespace ArmorPolicy

universe u

variable {α : Type u} [Ord α]

/-- Puts a member into an increasing list, where it is not there already. -/
def insertSorted (a : α) : List α → List α
  | [] => [a]
  | b :: rest =>
    match compare a b with
    | .lt => a :: b :: rest
    | .eq => b :: rest
    | .gt => b :: insertSorted a rest

theorem mem_insertSorted [Std.LawfulEqOrd α] {a x : α} {l : List α} :
    x ∈ insertSorted a l ↔ x = a ∨ x ∈ l := by
  induction l with
  | nil => simp [insertSorted]
  | cons b rest ih =>
    simp only [insertSorted]
    split
    next => simp
    next same =>
      have same : a = b := Std.LawfulEqOrd.eq_of_compare same
      subst same
      simp
    next => simp [ih, or_left_comm]

theorem pairwise_insertSorted [Std.TransOrd α] [Std.LawfulEqOrd α] {a : α} {l : List α}
    (sorted : l.Pairwise fun x y => compare x y = .lt) :
    (insertSorted a l).Pairwise fun x y => compare x y = .lt := by
  induction l with
  | nil => simp [insertSorted]
  | cons b rest ih =>
    obtain ⟨above, sortedRest⟩ := List.pairwise_cons.mp sorted
    simp only [insertSorted]
    split
    next less =>
      refine List.pairwise_cons.mpr ⟨fun x hx => ?_, sorted⟩
      rcases List.mem_cons.mp hx with rfl | hx
      · exact less
      · exact Std.TransCmp.lt_trans less (above x hx)
    next => exact sorted
    next greater =>
      refine List.pairwise_cons.mpr ⟨fun x hx => ?_, ih sortedRest⟩
      rcases mem_insertSorted.mp hx with rfl | hx
      · exact Std.OrientedCmp.gt_iff_lt.mp greater
      · exact above x hx

/-- A finite set, held as the increasing list of its members. -/
structure SortedSet (α : Type u) [Ord α] where
  toList : List α
  sorted : toList.Pairwise fun x y => compare x y = .lt

namespace SortedSet

theorem ext_toList {s t : SortedSet α} (same : s.toList = t.toList) : s = t := by
  cases s
  cases t
  cases same
  rfl

instance [DecidableEq α] : DecidableEq (SortedSet α) := fun s t =>
  if same : s.toList = t.toList then isTrue (ext_toList same)
  else isFalse fun equal => same (congrArg toList equal)

def empty : SortedSet α := ⟨[], List.Pairwise.nil⟩

instance : Inhabited (SortedSet α) := ⟨empty⟩

def isEmpty (s : SortedSet α) : Bool := s.toList.isEmpty

def size (s : SortedSet α) : Nat := s.toList.length

def contains [BEq α] (s : SortedSet α) (a : α) : Bool := s.toList.contains a

def subset [BEq α] (s t : SortedSet α) : Bool := s.toList.all t.contains

def filter (p : α → Bool) (s : SortedSet α) : SortedSet α :=
  ⟨s.toList.filter p, s.sorted.filter p⟩

def erase [BEq α] (s : SortedSet α) (a : α) : SortedSet α := s.filter fun b => !(b == a)

variable [Std.TransOrd α] [Std.LawfulEqOrd α]

def insert (s : SortedSet α) (a : α) : SortedSet α :=
  ⟨insertSorted a s.toList, pairwise_insertSorted s.sorted⟩

def ofList (members : List α) : SortedSet α := members.foldl insert empty

def union (s t : SortedSet α) : SortedSet α := t.toList.foldl insert s

def singleton (a : α) : SortedSet α := empty.insert a

end SortedSet

end ArmorPolicy
