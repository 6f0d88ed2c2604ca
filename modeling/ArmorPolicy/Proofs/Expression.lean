import ArmorPolicy.Expression
import ArmorPolicy.Proofs.Glob.Language
import Mathlib.Data.List.Basic

/-!
# What regular expressions mean

`Accepts` says which texts an expression stands for, behind a given character.  The matcher finds
these texts: a mark at a position says that some part of the text that ends there is accepted, from a
marked position on.  A position is given by the text before it, so that a step of the matcher cuts
that text in two: the part before the start, and the part that is accepted.
-/

namespace ArmorPolicy.Expression

open List
open Glob (CharClass ClassChar lastOf)

variable {cls : CharClass} {e : Expression} {before : Option Char} {text : List Char}

/-- The expression stands for the text where `before` is the character just before it. -/
def Accepts : Expression → Option Char → List Char → Prop
  | .empty, _, text => text = []
  | .one cls, _, text => ∃ c, text = [c] ∧ cls.contains c
  | .many cls, _, text => ∀ c ∈ text, cls.contains c
  | .behind present d, before, text => text = [] ∧ (before = some d ↔ present)
  | .seq first second, before, text =>
    ∃ start rest, text = start ++ rest ∧ first.Accepts before start ∧ second.Accepts (lastOf before start) rest
  | .alt first second, before, text => first.Accepts before text ∨ second.Accepts before text

/-! ## One pass over the text -/

theorem lastOf_append (before : Option Char) (first second : List Char) :
    lastOf before (first ++ second) = lastOf (lastOf before first) second := by
  simp [lastOf, Option.or_assoc]

def Marked (marks : List Bool) (left : List Char) : Prop := marks[left.length]? = some true

theorem marked_markOne_iff (cls : CharClass) (left right : List Char) (starts : List Bool) :
    Marked (markOne cls (left ++ right) starts) left ↔
      ∃ first c, left = first ++ [c] ∧ Marked starts first ∧ cls.contains c := by
  rcases eq_nil_or_concat left with rfl | ⟨first, c, rfl⟩
  · simp [Marked, markOne]
  · rw [concat_eq_append]
    have here : (first ++ [c] ++ right)[first.length]? = some c := by simp
    simp only [Marked, markOne, length_append, length_singleton, getElem?_cons_succ, getElem?_zipWith, here]
    constructor
    · intro marked
      cases start : starts[first.length]? with
      | none => simp [start] at marked
      | some value =>
        simp only [start, Option.some.injEq, Bool.and_eq_true] at marked
        exact ⟨first, c, rfl, by rw [start, marked.1], marked.2⟩
    · rintro ⟨other, d, same, start, accepted⟩
      obtain ⟨rfl, rfl⟩ : first = other ∧ c = d := by simpa using append_inj' same rfl
      simp [start, accepted]

/-- Characters of the class up to the end of `left` have come from before the text, or they begin at a
marked position. -/
theorem marked_markMany_iff (cls : CharClass) (running : Bool) (left right : List Char) (starts : List Bool)
    (full : starts.length = (left ++ right).length + 1) :
    Marked (markMany cls running (left ++ right) starts) left ↔
      (running ∧ ∀ c ∈ left, cls.contains c) ∨
        ∃ first run, left = first ++ run ∧ Marked starts first ∧ ∀ c ∈ run, cls.contains c := by
  cases starts with
  | nil => simp at full
  | cons start starts =>
    induction left generalizing running start starts with
    | nil =>
      have head : (markMany cls running right (start :: starts))[0]? = some (running || start) := by
        cases right <;> simp [markMany]
      simp [Marked, head]
    | cons c left ih =>
      cases starts with
      | nil => simp at full
      | cons next starts =>
        have step := ih ((running || start) && cls.contains c) next starts (by simpa using full)
        have shift : Marked (markMany cls running (c :: left ++ right) (start :: next :: starts)) (c :: left) ↔
            Marked (markMany cls ((running || start) && cls.contains c) (left ++ right) (next :: starts)) left := by
          simp [Marked, markMany]
        rw [shift, step]
        constructor
        · rintro (⟨reached, accepted⟩ | ⟨first, run, rfl, marked, accepted⟩)
          · simp only [Bool.and_eq_true, Bool.or_eq_true] at reached
            obtain ⟨running | start, head⟩ := reached
            · exact .inl ⟨running, forall_mem_cons.mpr ⟨head, accepted⟩⟩
            · exact .inr ⟨[], c :: left, rfl, by simp [Marked, start], forall_mem_cons.mpr ⟨head, accepted⟩⟩
          · exact .inr ⟨c :: first, run, rfl, by simpa [Marked] using marked, accepted⟩
        · rintro (⟨running, accepted⟩ | ⟨first, run, shape, marked, accepted⟩)
          · rw [forall_mem_cons] at accepted
            exact .inl ⟨by simp [running, accepted.1], accepted.2⟩
          · cases first with
            | nil =>
              obtain rfl : c :: left = run := shape
              rw [forall_mem_cons] at accepted
              have started : start := by simpa [Marked] using marked
              exact .inl ⟨by simp [started, accepted.1], accepted.2⟩
            | cons d first =>
              obtain ⟨rfl, rfl⟩ := List.cons.inj shape
              exact .inr ⟨first, run, rfl, by simpa [Marked] using marked, accepted⟩

theorem marked_markBehind_iff (present : Bool) (d : Char) (before : Option Char) (left right : List Char)
    (starts : List Bool) :
    Marked (markBehind present d before (left ++ right) starts) left ↔
      Marked starts left ∧ (lastOf before left = some d ↔ present) := by
  have last : (before :: (left ++ right).map some)[left.length]? = some (lastOf before left) := by
    rcases eq_nil_or_concat left with rfl | ⟨first, c, rfl⟩
    · simp [lastOf]
    · simp [lastOf]
  rw [Marked, markBehind, getElem?_zipWith, last, Marked]
  cases starts[left.length]? with
  | none => simp
  | some start =>
    by_cases here : lastOf before left = some d
    · cases present <;> simp [here]
    · cases present <;> simp [here]

theorem marked_zipWith_or_iff {first second : List Bool} (same : first.length = second.length)
    (left : List Char) :
    Marked (List.zipWith (· || ·) first second) left ↔ Marked first left ∨ Marked second left := by
  simp only [Marked, getElem?_zipWith]
  by_cases inside : left.length < first.length
  · simp [getElem?_eq_getElem inside, getElem?_eq_getElem (same ▸ inside)]
  · have outside : first.length ≤ left.length := Nat.le_of_not_lt inside
    simp [getElem?_eq_none outside, getElem?_eq_none (same ▸ outside)]

/-! ## The positions that an expression reaches -/

theorem length_markMany (cls : CharClass) (running : Bool) (text : List Char) (starts : List Bool)
    (full : starts.length = text.length + 1) : (markMany cls running text starts).length = text.length + 1 := by
  cases starts with
  | nil => simp at full
  | cons start starts =>
    induction text generalizing running start starts with
    | nil => simp [markMany]
    | cons c text ih =>
      cases starts with
      | nil => simp at full
      | cons next starts => rw [markMany, length_cons, ih _ next starts (by simpa using full), length_cons]

theorem length_marks (before : Option Char) (text : List Char) (e : Expression) (starts : List Bool)
    (full : starts.length = text.length + 1) : (marks before text e starts).length = text.length + 1 := by
  induction e generalizing starts with
  | empty => exact full
  | one cls => simp [marks, markOne, full]
  | many cls => exact length_markMany _ _ _ _ full
  | behind present d => simp [marks, markBehind, full]
  | seq first second firstIh secondIh => exact secondIh _ (firstIh _ full)
  | alt first second firstIh secondIh => simp [marks, firstIh _ full, secondIh _ full]

/-- An expression ends where a text that it accepts ends, behind a marked position. -/
theorem marked_marks_iff (before : Option Char) (text : List Char) (e : Expression) (starts : List Bool)
    (full : starts.length = text.length + 1) {left : List Char} (within : left <+: text) :
    Marked (marks before text e starts) left ↔
      ∃ first found, left = first ++ found ∧ Marked starts first ∧ e.Accepts (lastOf before first) found := by
  induction e generalizing left starts with
  | empty => simp [marks, Accepts]
  | one cls =>
    obtain ⟨right, rfl⟩ := within
    rw [marks, marked_markOne_iff]
    constructor
    · rintro ⟨first, c, shape, marked, accepted⟩
      exact ⟨first, [c], shape, marked, c, rfl, accepted⟩
    · rintro ⟨first, found, shape, marked, c, rfl, accepted⟩
      exact ⟨first, c, shape, marked, accepted⟩
  | many cls =>
    obtain ⟨right, rfl⟩ := within
    rw [marks, marked_markMany_iff _ _ _ _ _ full]
    simp [Accepts]
  | behind present d =>
    obtain ⟨right, rfl⟩ := within
    rw [marks, marked_markBehind_iff]
    constructor
    · rintro ⟨marked, last⟩
      exact ⟨left, [], by simp, marked, rfl, last⟩
    · rintro ⟨first, found, rfl, marked, rfl, last⟩
      rw [append_nil]
      exact ⟨marked, last⟩
  | seq first second firstIh secondIh =>
    rw [marks, secondIh _ (length_marks _ _ _ _ full) within]
    constructor
    · rintro ⟨middle, rest, rfl, marked, accepted⟩
      rw [firstIh _ full ((prefix_append middle rest).trans within)] at marked
      obtain ⟨start, found, rfl, marked, acceptedFirst⟩ := marked
      rw [lastOf_append] at accepted
      exact ⟨start, found ++ rest, by simp, marked, found, rest, rfl, acceptedFirst, accepted⟩
    · rintro ⟨start, _, rfl, marked, found, rest, rfl, acceptedFirst, acceptedSecond⟩
      refine ⟨start ++ found, rest, by simp, ?_, by rwa [lastOf_append]⟩
      have shorter : start ++ found <+: text := List.IsPrefix.trans ⟨rest, by simp⟩ within
      exact (firstIh _ full shorter).mpr ⟨start, found, rfl, marked, acceptedFirst⟩
  | alt first second firstIh secondIh =>
    have same := (length_marks before text first starts full).trans (length_marks before text second starts full).symm
    rw [marks, marked_zipWith_or_iff same, firstIh _ full within, secondIh _ full within]
    simp only [Accepts, and_or_left, exists_or]

theorem marksEnd_iff (before : Option Char) (e : Expression) (text : List Char) :
    marksEnd before e text ↔ e.Accepts before text := by
  have full : (true :: text.map fun _ => false).length = text.length + 1 := by simp
  have length := length_marks before text e _ full
  rw [marksEnd, beq_iff_eq, getLast?_eq_getElem?, length, Nat.add_sub_cancel]
  refine Iff.trans (marked_marks_iff before text e _ full prefix_rfl) ?_
  constructor
  · rintro ⟨first, found, rfl, marked, accepted⟩
    cases first with
    | nil => exact accepted
    | cons c first =>
      simp only [Marked, length_cons, getElem?_cons_succ, getElem?_map, Option.map_eq_some_iff] at marked
      obtain ⟨_, _, ⟨⟩⟩ := marked
  · intro accepted
    exact ⟨[], text, rfl, rfl, accepted⟩

theorem matchesFrom_iff (before : Option Char) (e : Expression) (text : List Char) :
    matchesFrom before e text ↔ e.Accepts before text := by
  fun_induction matchesFrom before e text with
  | case1 => simp [Accepts]
  | case2 before cls rest c text ih =>
    rw [Bool.and_eq_true, ih]
    constructor
    · rintro ⟨member, accepted⟩
      exact ⟨[c], text, rfl, ⟨c, rfl, member⟩, accepted⟩
    · rintro ⟨_, behind, shape, ⟨d, rfl, member⟩, accepted⟩
      obtain ⟨rfl, rfl⟩ := List.cons.inj shape
      exact ⟨member, accepted⟩
  | case3 before e text => exact marksEnd_iff before e text

theorem isMatch_iff (e : Expression) (text : List Char) : e.isMatch text ↔ e.Accepts none text :=
  matchesFrom_iff none e text

/-! ## Reading step by step -/

namespace Reader

theorem scan_append (reader : Reader) (s t : List Char) :
    reader.scan (s ++ t) = (reader.scan s).bind fun next => next.scan t := foldlM_append

theorem scan_cons (reader : Reader) (c : Char) (s : List Char) :
    reader.scan (c :: s) = (reader.read c).bind fun next => next.scan s := rfl

theorem mode_push (reader : Reader) (e : Expression) : (reader.push e).mode = .text := by
  unfold push
  split <;> rfl

theorem pushes_outer (outer es : List Expression) :
    es.foldl push ⟨[], outer, .text⟩ = ⟨[], es.reverse ++ outer, .text⟩ := by
  induction es generalizing outer with
  | nil => rfl
  | cons e es ih => simp [push, ih]

theorem pushes_group (group : Group) (groups : List Group) (outer es : List Expression) :
    es.foldl push ⟨group :: groups, outer, .text⟩ =
      ⟨{ group with current := es.reverse ++ group.current } :: groups, outer, .text⟩ := by
  induction es generalizing group with
  | nil => rfl
  | cons e es ih => simp [push, Group.push, ih]

section Members

variable {c : Char} (groups : List Group) (outer : List Expression)

theorem read_member (noEscape : c ≠ '\\') (noOpening : c ≠ '[') (noClosing : c ≠ ']') (chars : List ClassChar) :
    read ⟨groups, outer, .members chars⟩ c = some ⟨groups, outer, .members (⟨c, false⟩ :: chars)⟩ := by
  change readMember ⟨groups, outer, .members chars⟩ chars c = _
  unfold readMember
  split <;> simp_all

theorem scan_escaped_member (noLetter : Text.isAlphanumeric c = false) (chars : List ClassChar) (rest : List Char) :
    scan ⟨groups, outer, .members chars⟩ ('\\' :: c :: rest) =
      scan ⟨groups, outer, .members (⟨c, true⟩ :: chars)⟩ rest := by
  have noCode : c ≠ 'x' := by
    rintro rfl
    cases noLetter
  have start : read ⟨groups, outer, .members chars⟩ '\\' = some ⟨groups, outer, .memberEscape chars⟩ := rfl
  have escaped : read ⟨groups, outer, .memberEscape chars⟩ c = some ⟨groups, outer, .members (⟨c, true⟩ :: chars)⟩ := by
    simp [read, noCode, noLetter]
  rw [scan_cons, start, Option.bind_some, scan_cons, escaped, Option.bind_some]

end Members

end Reader

/-- The group behind further alternatives, the first of which goes on with the current one. -/
def Group.fill (group : Group) : List (List Expression) → Group
  | [] => group
  | [last] => { group with current := last.reverse ++ group.current }
  | first :: second :: others => fill { group with current := first.reverse ++ group.current }.separate (second :: others)

theorem Group.alternatives_fill (group : Group) (first : List Expression) (others : List (List Expression)) :
    (group.fill (first :: others)).alternatives =
      group.finished.reverse ++ (group.current.reverse ++ first) :: others := by
  induction others generalizing group first with
  | nil => simp [fill, alternatives]
  | cons second others ih =>
    rw [fill, ih]
    simp [separate]

end ArmorPolicy.Expression
