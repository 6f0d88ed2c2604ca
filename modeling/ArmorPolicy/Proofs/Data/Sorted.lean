import ArmorPolicy.Data.SortedMap
import ArmorPolicy.Data.SortedSet

/-!
# Members of sorted sets and maps

A set is determined by its members and a map by its entries, in any order.  Inserting under a new
key adds one entry and changes no other.
-/

universe u v w

namespace ArmorPolicy.SortedSet

variable {α : Type u} [Ord α] {s : SortedSet α} {a : α}

theorem nodup_toList [Std.LawfulEqOrd α] (s : SortedSet α) : s.toList.Nodup := by
  refine s.sorted.imp ?_
  intro first second less same
  rw [same, Std.ReflOrd.compare_self] at less
  cases less

variable [Std.TransOrd α] [Std.LawfulEqOrd α]

theorem ext_mem {t : SortedSet α} (same : ∀ a, a ∈ s.toList ↔ a ∈ t.toList) : s = t := by
  have perm := (List.perm_ext_iff_of_nodup s.nodup_toList t.nodup_toList).mpr same
  refine ext_toList (perm.eq_of_pairwise ?_ s.sorted t.sorted)
  intro first second _ _ less greater
  rw [Std.OrientedCmp.gt_iff_lt.mpr less] at greater
  cases greater

theorem mem_insert {b : α} : a ∈ (s.insert b).toList ↔ a = b ∨ a ∈ s.toList := mem_insertSorted

theorem mem_foldl_insert {members : List α} :
    a ∈ (members.foldl insert s).toList ↔ a ∈ s.toList ∨ a ∈ members := by
  induction members generalizing s with
  | nil => simp
  | cons b members ih =>
    rw [List.foldl_cons, ih, mem_insert, List.mem_cons]
    constructor
    · rintro ((rfl | known) | later)
      · exact .inr (.inl rfl)
      · exact .inl known
      · exact .inr (.inr later)
    · rintro (known | rfl | later)
      · exact .inl (.inr known)
      · exact .inl (.inl rfl)
      · exact .inr later

theorem mem_ofList {members : List α} : a ∈ (ofList members).toList ↔ a ∈ members := by
  rw [ofList, mem_foldl_insert]
  simp [empty]

theorem mem_union {t : SortedSet α} : a ∈ (s.union t).toList ↔ a ∈ s.toList ∨ a ∈ t.toList := mem_foldl_insert

theorem ofList_toList (s : SortedSet α) : ofList s.toList = s := ext_mem fun _ => mem_ofList

end ArmorPolicy.SortedSet

namespace ArmorPolicy.SortedMap

variable {α : Type u} {β : Type v} {γ : Type w} [Ord α] {entries : List (α × β)} {m : SortedMap α β}
  {key other : α} {entry : α × β} {value : β}

/-! ## Values -/

theorem values_mapValues (f : β → γ) (m : SortedMap α β) : (m.mapValues f).values = m.values.map f := by
  simp [mapValues, values]

/-! ## Keys -/

theorem contains_eq_false_iff [BEq α] [LawfulBEq α] :
    m.contains key = false ↔ ∀ entry ∈ m.entries, entry.1 ≠ key := by
  have absent : m.contains key = false ↔ m.entries.lookup key = none := by
    simp [contains, get?]
  rw [absent, List.lookup_eq_none_iff]
  simp only [bne_iff_ne, ne_eq]
  constructor
  · intro differs entry member same
    exact differs entry member same.symm
  · intro differs entry member same
    exact differs entry member same.symm

theorem nodup_keys [Std.LawfulEqOrd α] (m : SortedMap α β) : (m.entries.map Prod.fst).Nodup := by
  rw [List.Nodup, List.pairwise_map]
  refine m.sorted.imp ?_
  intro first second less same
  rw [same, Std.ReflOrd.compare_self] at less
  cases less

theorem eq_of_perm [Std.TransOrd α] {n : SortedMap α β} (same : m.entries.Perm n.entries) : m = n := by
  refine ext_entries (same.eq_of_pairwise ?_ m.sorted n.sorted)
  intro first second _ _ less greater
  rw [Std.OrientedCmp.gt_iff_lt.mpr less] at greater
  cases greater

theorem get?_eq_some_iff [Std.LawfulEqOrd α] [BEq α] [LawfulBEq α] :
    m.get? key = some value ↔ (key, value) ∈ m.entries := by
  have distinct := nodup_keys m
  rw [get?]
  generalize m.entries = entries at distinct ⊢
  induction entries with
  | nil => simp
  | cons entry rest ih =>
    rw [List.map_cons, List.nodup_cons] at distinct
    have later : rest.lookup key = some value ↔ (key, value) ∈ rest := ih distinct.2
    rw [List.lookup_cons, List.mem_cons, ← later]
    cases here : key == entry.1 with
    | false =>
      have apart : (key, value) ≠ entry := by
        rintro rfl
        simp at here
      simp [apart]
    | true =>
      obtain rfl : key = entry.1 := eq_of_beq here
      have absent : rest.lookup entry.1 = none := by
        rw [List.lookup_eq_none_iff]
        intro other member
        rw [bne_iff_ne]
        intro same
        exact distinct.1 (same ▸ List.mem_map_of_mem member)
      simp [absent, Prod.ext_iff, eq_comm]

theorem nodup_entries [Std.LawfulEqOrd α] (m : SortedMap α β) : m.entries.Nodup :=
  List.Pairwise.of_map Prod.fst (fun _ _ apart same => apart (congrArg Prod.fst same)) (nodup_keys m)

theorem ext_get? [Std.TransOrd α] [Std.LawfulEqOrd α] [BEq α] [LawfulBEq α] {n : SortedMap α β}
    (same : ∀ key, m.get? key = n.get? key) : m = n := by
  refine eq_of_perm ((List.perm_ext_iff_of_nodup (nodup_entries m) (nodup_entries n)).mpr ?_)
  intro entry
  rw [← get?_eq_some_iff, ← get?_eq_some_iff, same]

/-! ## Inserting -/

theorem absent_of_nodup (distinct : ((entry :: entries ++ m.entries).map Prod.fst).Nodup) :
    ∀ known ∈ m.entries, known.1 ≠ entry.1 := by
  intro known member same
  rw [List.cons_append, List.map_cons, List.nodup_cons] at distinct
  refine distinct.1 (same ▸ List.mem_map_of_mem ?_)
  exact List.mem_append_right entries member

theorem alterSorted_perm_of_absent [Std.LawfulEqOrd α] (absent : ∀ entry ∈ entries, entry.1 ≠ key) :
    (alterSorted key (fun _ => value) entries).Perm ((key, value) :: entries) := by
  induction entries with
  | nil => exact .refl _
  | cons entry rest ih =>
    rw [List.forall_mem_cons] at absent
    unfold alterSorted
    split
    · exact .refl _
    next same => exact absurd (Std.LawfulEqOrd.eq_of_compare same).symm absent.1
    · exact ((ih absent.2).cons entry).trans (.swap _ _ _)

variable [Std.TransOrd α] [Std.LawfulEqOrd α]

theorem lookup_alterSorted [BEq α] [LawfulBEq α] {f : Option β → β}
    (sorted : entries.Pairwise fun x y => compare x.1 y.1 = .lt) :
    (alterSorted key f entries).lookup other =
      if other == key then some (f (entries.lookup key)) else entries.lookup other := by
  induction entries with
  | nil =>
    rw [alterSorted, List.lookup_cons]
    cases other == key <;> rfl
  | cons entry rest ih =>
    obtain ⟨above, sortedRest⟩ := List.pairwise_cons.mp sorted
    unfold alterSorted
    split
    next less =>
      have absent : (entry :: rest).lookup key = none := by
        rw [List.lookup_eq_none_iff]
        intro known member
        rw [bne_iff_ne]
        rintro rfl
        rcases List.mem_cons.mp member with rfl | later
        · rw [Std.ReflOrd.compare_self] at less
          cases less
        · rw [Std.OrientedCmp.gt_iff_lt.mpr (above known later)] at less
          cases less
      rw [List.lookup_cons, absent]
      cases other == key <;> rfl
    next same =>
      obtain rfl : key = entry.1 := Std.LawfulEqOrd.eq_of_compare same
      rw [List.lookup_cons, List.lookup_cons, List.lookup_cons, beq_self_eq_true]
      cases other == entry.1 <;> rfl
    next differ =>
      have apart : (key == entry.1) = false := by
        rw [beq_eq_false_iff_ne]
        rintro rfl
        rw [Std.ReflOrd.compare_self] at differ
        cases differ
      rw [List.lookup_cons, List.lookup_cons, List.lookup_cons, ih sortedRest, apart]
      cases here : other == entry.1 with
      | false => rfl
      | true =>
        obtain rfl : other = entry.1 := eq_of_beq here
        rw [BEq.comm, apart]
        rfl

theorem get?_alter [BEq α] [LawfulBEq α] {f : Option β → β} :
    (m.alter key f).get? other = if other == key then some (f (m.get? key)) else m.get? other :=
  lookup_alterSorted m.sorted

theorem get?_insert [BEq α] [LawfulBEq α] :
    (m.insert key value).get? other = if other == key then some value else m.get? other :=
  get?_alter

theorem insert_perm_of_absent (absent : ∀ entry ∈ m.entries, entry.1 ≠ key) (value : β) :
    (m.insert key value).entries.Perm ((key, value) :: m.entries) :=
  alterSorted_perm_of_absent absent

theorem mem_values_insert (absent : ∀ entry ∈ m.entries, entry.1 ≠ key) {other : β} :
    other ∈ (m.insert key value).values ↔ other = value ∨ other ∈ m.values := by
  rw [values, ((insert_perm_of_absent absent value).map Prod.snd).mem_iff, List.map_cons, List.mem_cons,
    values]

theorem append_insert_perm (absent : ∀ known ∈ m.entries, known.1 ≠ entry.1) :
    (entries ++ (m.insert entry.1 entry.2).entries).Perm (entry :: entries ++ m.entries) :=
  ((insert_perm_of_absent absent entry.2).append_left entries).trans List.perm_middle

theorem nodup_insert (distinct : ((entry :: entries ++ m.entries).map Prod.fst).Nodup) :
    ((entries ++ (m.insert entry.1 entry.2).entries).map Prod.fst).Nodup :=
  (((append_insert_perm (absent_of_nodup distinct)).map Prod.fst).nodup_iff).mpr distinct

def insertAll (m : SortedMap α β) (entries : List (α × β)) : SortedMap α β :=
  entries.foldl (fun m entry => m.insert entry.1 entry.2) m

theorem insertAll_perm (distinct : ((entries ++ m.entries).map Prod.fst).Nodup) :
    (m.insertAll entries).entries.Perm (entries ++ m.entries) := by
  induction entries generalizing m with
  | nil => exact .refl _
  | cons entry entries ih =>
    exact (ih (nodup_insert distinct)).trans (append_insert_perm (absent_of_nodup distinct))

theorem insertAll_empty_perm (distinct : (entries.map Prod.fst).Nodup) :
    (empty.insertAll entries).entries.Perm entries := by
  have perm : (empty.insertAll entries).entries.Perm (entries ++ []) :=
    insertAll_perm ((List.append_nil entries).symm ▸ distinct)
  rwa [List.append_nil] at perm

end ArmorPolicy.SortedMap
