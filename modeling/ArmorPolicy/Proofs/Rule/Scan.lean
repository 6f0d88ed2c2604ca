import ArmorPolicy.Proofs.Rule.Reading

/-!
# What is read from the words of clauses

Clauses are read by taking words off a text.  What holds of every word holds of the values that are
read, and the letters of the values keep the order that they have in the text.
-/

namespace ArmorPolicy

open Checked List Text Line

def ClauseValue.letters (value : ClauseValue) : List Char := value.items.flatMap String.toList

namespace Clauses

variable {stop : Char → Bool} {body s rest : List Char}

/-! ## Words -/

theorem wordFrom_spec (stop : Char → Bool) (inside : Bool) (s : List Char) :
    '"' ∉ (wordFrom stop inside s).1 ∧ (wordFrom stop inside s).2 <:+ s ∧
      ((wordFrom stop inside s).1 ++ (wordFrom stop inside s).2).Sublist s := by
  induction s generalizing inside with
  | nil => exact ⟨by simp [wordFrom], suffix_rfl, List.Sublist.refl _⟩
  | cons c s ih =>
    rw [wordFrom]
    split
    · obtain ⟨noMark, suffix, sublist⟩ := ih !inside
      exact ⟨noMark, suffix.trans (suffix_cons c s), sublist.cons c⟩
    next other =>
      split
      · exact ⟨by simp, suffix_rfl, List.Sublist.refl _⟩
      · obtain ⟨noMark, suffix, sublist⟩ := ih inside
        exact ⟨by simp [noMark, Ne.symm other], suffix.trans (suffix_cons c s), sublist.cons_cons c⟩

theorem noMark_word (stop : Char → Bool) (s : List Char) : '"' ∉ (word stop s).1 :=
  (wordFrom_spec stop false s).1

theorem word_sublist (stop : Char → Bool) (s : List Char) : ((word stop s).1 ++ (word stop s).2).Sublist s :=
  (wordFrom_spec stop false s).2.2

/-! ## What words give to values -/

/-- A property of the texts from which words are taken, and what it says of the words. -/
structure Scanned (Inv Single Item : List Char → Prop) : Prop where
  tail : ∀ {c s}, c ≠ '"' → Inv (c :: s) → Inv s
  behind : ∀ stop s, Inv s → Inv (word stop s).2
  single : ∀ s, Inv s → s.head? ≠ some '(' → Single (word (fun _ => false) s).1
  item : ∀ {c s}, isSeparator c = false → c ≠ ')' → Inv (c :: s) → Item (word (· == ')') (c :: s)).1

def letters (conditions : List (String × ClauseValue)) : List Char :=
  conditions.flatMap fun entry => entry.2.letters

def Step.letters : Step → List Char
  | .access _ => []
  | .condition _ value => value.letters

def Holds (Single Item : List Char → Prop) : ClauseValue → Prop
  | .single value => value ≠ "" ∧ Single value.toList
  | .list items => ∀ item ∈ items, Item item.toList

namespace Scanned

variable {Inv Single Item : List Char → Prop} (scanned : Scanned Inv Single Item)
include scanned

theorem dropWhile (inv : Inv s) : Inv (s.dropWhile isSeparator) := by
  induction s with
  | nil => exact inv
  | cons c s ih =>
    rw [dropWhile_cons]
    split
    next separates =>
      refine ih (scanned.tail ?_ inv)
      rintro rfl
      cases separates
    · exact inv

theorem group {items : List String} (inv : Inv s) (success : group s = .ok (items, rest)) :
    Inv rest ∧ (∀ item ∈ items, Item item.toList) ∧ (items.flatMap String.toList ++ rest).Sublist s := by
  fun_induction Clauses.group s generalizing items rest with
  | case1 s h => cases success
  | case2 s t h =>
    cases success
    have inner := scanned.dropWhile inv
    have front := dropWhile_sublist (l := s) isSeparator
    rw [h] at inner front
    exact ⟨scanned.tail (by decide) inner, by simp, (sublist_cons_self _ _).trans front⟩
  | case3 s c t notEnd h item behind found shorter _ ih =>
    have inner := scanned.dropWhile inv
    have front := dropWhile_sublist (l := s) isSeparator
    rw [h] at inner front
    have left := scanned.behind (· == ')') _ inner
    have valid := scanned.item (not_isSeparator_of_dropWhile h) notEnd inner
    have taken := word_sublist (· == ')') (c :: t)
    rw [found] at left valid taken
    obtain ⟨⟨others, last⟩, further, ⟨⟩⟩ := map_eq_ok.mp success
    obtain ⟨kept, all, ordered⟩ := ih left further
    refine ⟨kept, forall_mem_cons.mpr ⟨by simpa using valid, all⟩, ?_⟩
    rw [flatMap_cons, String.toList_ofList, append_assoc]
    exact ((ordered.append_left item).trans taken).trans front
  | case4 s c t notEnd h item behind found shorter => cases success

theorem value {key : String} {value : ClauseValue} (inv : Inv s)
    (success : Clauses.value key s = .ok (value, rest)) :
    Inv rest ∧ Holds Single Item value ∧ (value.letters ++ rest).Sublist s := by
  unfold Clauses.value at success
  split at success
  next t =>
    obtain ⟨⟨items, behind⟩, grouped, ⟨⟩⟩ := map_eq_ok.mp success
    obtain ⟨kept, all, ordered⟩ := scanned.group (scanned.tail (by decide) inv) grouped
    exact ⟨kept, all, ordered.trans (sublist_cons_self _ _)⟩
  next notOpen =>
    have first : s.head? ≠ some '(' := by
      intro opens
      obtain ⟨t, rfl⟩ := head?_eq_some_iff.mp opens
      exact notOpen t rfl
    have left := scanned.behind (fun _ => false) s inv
    have valid := scanned.single s inv first
    have taken := word_sublist (fun _ => false) s
    split at success
    next part behind found =>
      rw [found] at left valid taken
      split at success
      · cases success
      next some =>
        cases success
        exact ⟨left, ⟨by simpa using some, by simpa using valid⟩,
          by simpa [ClauseValue.letters, ClauseValue.items] using taken⟩

theorem step {found : Step} (inv : Inv s) (success : Clauses.step body s = .ok (found, rest)) :
    Inv rest ∧ (∀ key value, found = .condition key value → Holds Single Item value) ∧
      (found.letters ++ rest).Sublist s := by
  unfold Clauses.step at success
  split at success
  next t =>
    obtain ⟨⟨items, behind⟩, grouped, ⟨⟩⟩ := map_eq_ok.mp success
    obtain ⟨kept, _, ordered⟩ := scanned.group (scanned.tail (by decide) inv) grouped
    exact ⟨kept, by simp, ((sublist_append_right _ _).trans ordered).trans (sublist_cons_self _ _)⟩
  · cases success
  · have left := scanned.behind isWordStop s inv
    have taken := (sublist_append_right _ _).trans (word_sublist isWordStop s)
    split at success
    next part behind read =>
      rw [read] at left taken
      split at success
      next t =>
        obtain ⟨⟨value, last⟩, valued, ⟨⟩⟩ := map_eq_ok.mp success
        obtain ⟨kept, valid, ordered⟩ := scanned.value (scanned.tail (by decide) left) valued
        refine ⟨kept, ?_, (ordered.trans (sublist_cons_self _ _)).trans taken⟩
        rintro key other same
        cases same
        exact valid
      · cases success
        exact ⟨left, by simp, taken⟩

/-- What holds of words holds of the values of all conditions, and these keep the order of the text
behind the separators at its start. -/
theorem readFrom {clauses : Clauses} (inv : Inv s) (success : readFrom body s = .ok clauses) :
    (∀ entry ∈ clauses.conditions, Holds Single Item entry.2) ∧
      (letters clauses.conditions).Sublist (s.dropWhile isSeparator) := by
  fun_induction Clauses.readFrom body s generalizing clauses with
  | case1 s h =>
    cases success
    exact ⟨by simp, nil_sublist _⟩
  | case2 s c t h fault failed => cases success
  | case3 s c t h found behind read _ ih =>
    have inner := scanned.dropWhile inv
    rw [h] at inner ⊢
    obtain ⟨kept, valid, front⟩ := scanned.step inner read
    obtain ⟨others, further, rfl⟩ := map_eq_ok.mp success
    obtain ⟨all, ordered⟩ := ih kept further
    have whole := ((ordered.trans (dropWhile_sublist isSeparator)).append_left found.letters).trans front
    cases found with
    | access words => exact ⟨all, whole⟩
    | condition key value => exact ⟨forall_mem_cons.mpr ⟨valid key value rfl, all⟩, whole⟩

end Scanned

/-! ## Taking conditions out -/

def stated (key : String) (value : Option ClauseValue) : List (String × ClauseValue) :=
  (value.map fun found => (key, found)).toList

theorem take_perm {clauses others : Clauses} {key : String} {value : Option ClauseValue}
    (success : clauses.take key = .ok (value, others)) :
    clauses.conditions.Perm (stated key value ++ others.conditions) := by
  have all := (filter_append_perm (fun entry => entry.1 == key) clauses.conditions).symm
  have rest : (clauses.conditions.filter fun entry => entry.1 != key) =
      clauses.conditions.filter fun entry => !(entry.1 == key) := rfl
  unfold take at success
  rw [rest] at success
  split at success
  next none =>
    cases success
    rwa [none] at all
  next entry one =>
    cases success
    have member : entry ∈ clauses.conditions.filter fun entry => entry.1 == key := by simp [one]
    have same : (key, entry.2) = entry := by rw [← eq_of_beq (mem_filter.mp member).2]
    rw [one] at all
    simpa [stated, same] using all
  · cases success

theorem finish_eq_ok {clauses : Clauses} {place : String} (success : clauses.finish place = .ok ()) :
    clauses.conditions = [] := by
  unfold finish at success
  split at success
  next none => exact none
  · cases success

end Clauses

end ArmorPolicy
