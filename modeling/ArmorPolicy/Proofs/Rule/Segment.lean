import ArmorPolicy.Proofs.Rule.Clause
import Mathlib.Algebra.Group.Even
import Mathlib.Algebra.Group.Nat.Even

/-!
# Bodies that are read piecewise

Between the clauses of a body, and only there, reading is outside of words, lists and quotation
marks.  A text whose quotation marks all pair up can therefore stand before any other text: its
clauses come first, and what follows is read as if it stood alone.  The order of such texts shows in
the order of the clauses only, not in the accesses nor in any condition that is taken out.
-/

namespace ArmorPolicy

open SortedSet Checked List Text Line

namespace Clauses

variable {stop : Char → Bool} {body other s t rest : List Char}

def MarksPaired (s : List Char) : Prop := Even (s.count '"')

/-! ## Words before a space -/

theorem wordFrom_append (inside : Bool) (paired : Even (s.count '"' + inside.toNat)) :
    wordFrom stop inside (s ++ ' ' :: t) =
        ((wordFrom stop inside s).1, (wordFrom stop inside s).2 ++ ' ' :: t) ∧
      MarksPaired (wordFrom stop inside s).2 := by
  induction s generalizing inside with
  | nil =>
    cases inside with
    | false => simp [wordFrom, isSeparator_space, MarksPaired]
    | true => simp at paired
  | cons c s ih =>
    rw [cons_append, wordFrom, wordFrom]
    by_cases mark : c = '"'
    · subst mark
      rw [if_pos rfl, if_pos rfl]
      apply ih (!inside)
      cases inside <;> simp_all [Nat.even_add_one]
    · have inner : Even (s.count '"' + inside.toNat) := by rwa [count_cons_of_ne mark] at paired
      rw [if_neg mark, if_neg mark]
      split
      next stops =>
        simp only [Bool.and_eq_true, Bool.not_eq_true'] at stops
        rw [stops.1] at paired
        exact ⟨rfl, paired⟩
      · exact ⟨by rw [(ih inside inner).1], (ih inside inner).2⟩

theorem word_append_space (paired : MarksPaired s) :
    word stop (s ++ ' ' :: t) = ((word stop s).1, (word stop s).2 ++ ' ' :: t) :=
  (wordFrom_append false paired).1

theorem scanned_marksPaired : Scanned MarksPaired (fun _ => True) (fun _ => True) where
  tail mark paired := by rwa [MarksPaired, count_cons_of_ne mark] at paired
  behind stop s paired := (wordFrom_append (t := []) false paired).2
  single _ _ _ := trivial
  item _ _ _ := trivial

/-! ## Clauses before a space -/

theorem dropWhile_append_cons {c : Char} (found : s.dropWhile isSeparator = c :: rest) :
    (s ++ t).dropWhile isSeparator = c :: (rest ++ t) := by
  rw [dropWhile_append, found]
  rfl

theorem group_eq_of_dropWhile (same : s.dropWhile isSeparator = t.dropWhile isSeparator) :
    group s = group t := by
  rw [group, group.eq_def t]
  dsimp only
  generalize s.dropWhile isSeparator = u at same ⊢
  subst same
  rfl

theorem readFrom_eq_of_dropWhile (same : s.dropWhile isSeparator = t.dropWhile isSeparator) :
    readFrom body s = readFrom body t := by
  rw [readFrom, readFrom.eq_def body t]
  dsimp only
  generalize s.dropWhile isSeparator = u at same ⊢
  subst same
  rfl

theorem dropWhile_of_cons {c : Char} (starts : isSeparator c = false) :
    (c :: s).dropWhile isSeparator = c :: s := by
  rw [dropWhile_cons, starts]
  rfl

theorem group_append_space {items : List String} (paired : MarksPaired s)
    (success : group s = .ok (items, rest)) : group (s ++ ' ' :: t) = .ok (items, rest ++ ' ' :: t) := by
  fun_induction Clauses.group s generalizing items rest with
  | case1 s h => cases success
  | case2 s u h =>
    cases success
    have start : (s ++ ' ' :: t).dropWhile isSeparator = (')' :: (u ++ ' ' :: t)).dropWhile isSeparator :=
      dropWhile_append_cons h
    rw [group_eq_of_dropWhile start, group_of_end]
  | case3 s c u notEnd h item behind found shorter _ ih =>
    have starts := not_isSeparator_of_dropWhile h
    have inner := scanned_marksPaired.dropWhile paired
    rw [h] at inner
    have left := scanned_marksPaired.behind (· == ')') _ inner
    have read : word (· == ')') (c :: u ++ ' ' :: t) = _ := word_append_space inner
    rw [found] at left read
    obtain ⟨⟨others, last⟩, further, ⟨⟩⟩ := map_eq_ok.mp success
    have start : (s ++ ' ' :: t).dropWhile isSeparator = (c :: u ++ ' ' :: t).dropWhile isSeparator := by
      rw [dropWhile_append_cons h, cons_append, dropWhile_of_cons starts]
    have longer : (behind ++ ' ' :: t).length < (c :: u ++ ' ' :: t).length := by
      simp only [length_append]
      omega
    have first := group_word (cons_append ..) starts notEnd read longer
    rw [group_eq_of_dropWhile start, first, ih left further]
    rfl
  | case4 s c u notEnd h item behind found shorter => cases success

theorem value_of_word {key : String} (notOpen : s.head? ≠ some '(') :
    value key s =
      if (word (fun _ => false) s).1.isEmpty then refuse (.missingValue key)
      else .ok (.single (String.ofList (word (fun _ => false) s).1), (word (fun _ => false) s).2) := by
  unfold Clauses.value
  split
  · exact absurd rfl notOpen
  · rfl

theorem step_of_word (notOpen : s.head? ≠ some '(') (notClose : s.head? ≠ some ')') :
    step body s = stepBehind (String.ofList (word isWordStop s).1) (word isWordStop s).2 := by
  unfold Clauses.step
  split
  · exact absurd rfl notOpen
  · exact absurd rfl notClose
  · unfold stepBehind
    rfl

theorem head?_append_space {c : Char} (apart : c ≠ ' ') (first : s.head? ≠ some c) :
    (s ++ ' ' :: t).head? ≠ some c := by
  cases s with
  | nil => simpa using apart.symm
  | cons d s => simpa using first

theorem value_append_space {key : String} {found : ClauseValue} (paired : MarksPaired s)
    (success : value key s = .ok (found, rest)) :
    value key (s ++ ' ' :: t) = .ok (found, rest ++ ' ' :: t) := by
  by_cases opens : s.head? = some '('
  · obtain ⟨u, rfl⟩ := head?_eq_some_iff.mp opens
    obtain ⟨⟨items, behind⟩, grouped, ⟨⟩⟩ := map_eq_ok.mp success
    have inner := group_append_space (t := t) (scanned_marksPaired.tail (by decide) paired) grouped
    rw [cons_append, Clauses.value, inner]
    rfl
  · rw [value_of_word opens] at success
    rw [value_of_word (head?_append_space (by decide) opens), word_append_space paired]
    split at success
    · cases success
    next some =>
      cases success
      rw [if_neg some]

theorem stepBehind_append_space {name : String} {found : Step} (paired : MarksPaired s)
    (success : stepBehind name s = .ok (found, rest)) :
    stepBehind name (s ++ ' ' :: t) = .ok (found, rest ++ ' ' :: t) := by
  unfold stepBehind at success
  split at success
  next u =>
    obtain ⟨⟨value, behind⟩, valued, ⟨⟩⟩ := map_eq_ok.mp success
    have inner := value_append_space (t := t) (scanned_marksPaired.tail (by decide) paired) valued
    rw [cons_append, stepBehind, inner]
    rfl
  next notEquals =>
    cases success
    unfold stepBehind
    split
    next u h =>
      cases s with
      | nil => cases h
      | cons c s => exact absurd (congrArg (· :: s) (List.cons.inj h).1) (notEquals s)
    · rfl

theorem step_append_space {found : Step} (paired : MarksPaired s)
    (success : step body s = .ok (found, rest)) :
    step other (s ++ ' ' :: t) = .ok (found, rest ++ ' ' :: t) := by
  by_cases opens : s.head? = some '('
  · obtain ⟨u, rfl⟩ := head?_eq_some_iff.mp opens
    obtain ⟨⟨items, behind⟩, grouped, ⟨⟩⟩ := map_eq_ok.mp success
    have inner := group_append_space (t := t) (scanned_marksPaired.tail (by decide) paired) grouped
    rw [cons_append, Clauses.step, inner]
    rfl
  by_cases closes : s.head? = some ')'
  · obtain ⟨u, rfl⟩ := head?_eq_some_iff.mp closes
    cases success
  rw [step_of_word opens closes] at success
  rw [step_of_word (head?_append_space (by decide) opens) (head?_append_space (by decide) closes),
    word_append_space paired]
  exact stepBehind_append_space (scanned_marksPaired.behind isWordStop s paired) success

/-! ## Bodies before a space -/

instance : Append Clauses where
  append first second := ⟨first.access ++ second.access, first.conditions ++ second.conditions⟩

@[simp]
theorem access_append (first second : Clauses) : (first ++ second).access = first.access ++ second.access := rfl

@[simp]
theorem conditions_append (first second : Clauses) :
    (first ++ second).conditions = first.conditions ++ second.conditions := rfl

theorem readFrom_cons {c : Char} (starts : isSeparator c = false) :
    readFrom body (c :: s) =
      step body (c :: s) >>= fun (found, rest) => (readFrom body rest).map (Step.addTo · found) := by
  rw [← readFrom_space starts]
  exact readFrom_eq_of_dropWhile rfl

theorem addTo_append (first second : Clauses) (found : Step) :
    found.addTo (first ++ second) = found.addTo first ++ second := by
  cases found with
  | access words => exact congrArg (Clauses.mk · _) (append_assoc ..).symm
  | condition key value => rfl

theorem readFrom_append_space {found : Clauses} (paired : MarksPaired s)
    (success : readFrom body s = .ok found) :
    readFrom other (s ++ ' ' :: t) = (readFrom other t).map (found ++ ·) := by
  fun_induction Clauses.readFrom body s generalizing found with
  | case1 s h =>
    cases success
    have start : (s ++ ' ' :: t).dropWhile isSeparator = t.dropWhile isSeparator := by
      rw [dropWhile_append, h]
      rfl
    rw [readFrom_eq_of_dropWhile start]
    cases readFrom other t <;> rfl
  | case2 s c u h fault failed => cases success
  | case3 s c u h first behind read _ ih =>
    have starts := not_isSeparator_of_dropWhile h
    have inner := scanned_marksPaired.dropWhile paired
    rw [h] at inner
    obtain ⟨rest, further, rfl⟩ := map_eq_ok.mp success
    have start : (s ++ ' ' :: t).dropWhile isSeparator = (c :: (u ++ ' ' :: t)).dropWhile isSeparator := by
      rw [dropWhile_append_cons h, dropWhile_of_cons starts]
    have stepped : step other (c :: (u ++ ' ' :: t)) = .ok (first, behind ++ ' ' :: t) :=
      step_append_space inner read
    rw [readFrom_eq_of_dropWhile start, readFrom_cons starts, stepped]
    change (readFrom other (behind ++ ' ' :: t)).map (Step.addTo · first) = _
    rw [ih (scanned_marksPaired.step inner read).1 further]
    cases readFrom other t with
    | error fault => rfl
    | ok clauses => exact congrArg Except.ok (addTo_append rest clauses first)

theorem step_eq_ok_of_body {found : Step} (success : step body s = .ok (found, rest)) :
    step other s = .ok (found, rest) := by
  unfold Clauses.step at success ⊢
  split at success
  · exact success
  · cases success
  · exact success

theorem readFrom_eq_ok_of_body {found : Clauses} (success : readFrom body s = .ok found) :
    readFrom other s = .ok found := by
  fun_induction Clauses.readFrom body s generalizing found with
  | case1 s h =>
    cases success
    exact (readFrom_eq_of_dropWhile h).trans readFrom_nil
  | case2 s c u h fault failed => cases success
  | case3 s c u h first behind read _ ih =>
    have starts := not_isSeparator_of_dropWhile h
    obtain ⟨rest, further, rfl⟩ := map_eq_ok.mp success
    have start : s.dropWhile isSeparator = (c :: u).dropWhile isSeparator := by rw [h, dropWhile_of_cons starts]
    rw [readFrom_eq_of_dropWhile start, readFrom_cons starts, step_eq_ok_of_body read]
    exact map_eq_ok.mpr ⟨rest, ih further, rfl⟩

theorem read_append_space_iff {found whole : Clauses} (paired : MarksPaired s) (success : read s = .ok found) :
    read (s ++ ' ' :: t) = .ok whole ↔ ∃ rest, read t = .ok rest ∧ whole = found ++ rest := by
  rw [read, readFrom_append_space paired success, map_eq_ok]
  constructor
  · rintro ⟨rest, further, rfl⟩
    exact ⟨rest, readFrom_eq_ok_of_body further, rfl⟩
  · rintro ⟨rest, further, rfl⟩
    exact ⟨rest, readFrom_eq_ok_of_body further, rfl⟩

/-! ## Bodies in any order -/

def clausesOf (s : List Char) : Clauses := (read s).toOption.getD {}

/-- A text that can stand before others in a body. -/
def IsSegment (s : List Char) : Prop := MarksPaired s ∧ ∃ found, read s = .ok found

theorem IsSegment.read_eq (segment : IsSegment s) : read s = .ok (clausesOf s) := by
  obtain ⟨_, found, success⟩ := segment
  rw [clausesOf, success]
  rfl

theorem read_intercalate {segments : List (List Char)} (valid : ∀ s ∈ segments, IsSegment s) :
    read ([' '].intercalate segments) = .ok
      ⟨segments.flatMap fun s => (clausesOf s).access, segments.flatMap fun s => (clausesOf s).conditions⟩ := by
  induction segments with
  | nil => exact readFrom_nil
  | cons s segments ih =>
    rw [forall_mem_cons] at valid
    cases segments with
    | nil => simpa [List.intercalate] using valid.1.read_eq
    | cons t segments =>
      have joined : [' '].intercalate (s :: t :: segments) = s ++ ' ' :: [' '].intercalate (t :: segments) := by
        simp [List.intercalate]
      rw [joined, read_append_space_iff valid.1.1 valid.1.read_eq]
      exact ⟨_, ih valid.2, rfl⟩

/-- What one call takes out does not depend on the order of the conditions, nor does what it leaves,
up to order. -/
theorem take_of_perm {first second : Clauses} (perm : first.conditions.Perm second.conditions) (key : String) :
    (∃ fault, first.take key = .error fault ∧ second.take key = .error fault) ∨
      ∃ value rest others, first.take key = .ok (value, rest) ∧ second.take key = .ok (value, others) ∧
        rest.conditions.Perm others.conditions := by
  have found := perm.filter fun entry => entry.1 == key
  have left := perm.filter fun entry => entry.1 != key
  unfold take
  generalize (first.conditions.filter fun entry => entry.1 == key) = mine at found
  generalize (second.conditions.filter fun entry => entry.1 == key) = theirs at found
  match mine, theirs with
  | [], theirs =>
    cases found.nil_eq
    exact .inr ⟨_, _, _, rfl, rfl, left⟩
  | [entry], theirs =>
    cases singleton_perm.mp found
    exact .inr ⟨_, _, _, rfl, rfl, left⟩
  | _ :: _ :: _, [] => cases found.eq_nil
  | _ :: _ :: _, [_] => cases perm_singleton.mp found
  | _ :: _ :: _, _ :: _ :: _ => exact .inl ⟨_, rfl, rfl⟩

theorem map_take_of_perm {first second : Clauses} (perm : first.conditions.Perm second.conditions)
    (key : String) : (first.take key).map Prod.fst = (second.take key).map Prod.fst := by
  rcases take_of_perm perm key with ⟨fault, mine, theirs⟩ | ⟨value, rest, others, mine, theirs, _⟩
  · rw [mine, theirs]
  · rw [mine, theirs]
    rfl

def takeEach (clauses : Clauses) : List String → Checked (List (Option ClauseValue))
  | [] => .ok []
  | key :: keys => clauses.take key >>= fun (value, rest) => (rest.takeEach keys).map (value :: ·)

theorem takeEach_of_perm {first second : Clauses} (perm : first.conditions.Perm second.conditions)
    (keys : List String) : first.takeEach keys = second.takeEach keys := by
  induction keys generalizing first second with
  | nil => rfl
  | cons key keys ih =>
    rw [takeEach, takeEach]
    rcases take_of_perm perm key with ⟨fault, mine, theirs⟩ | ⟨value, rest, others, mine, theirs, left⟩
    · rw [mine, theirs]
    · rw [mine, theirs]
      exact congrArg (Except.map (value :: ·)) (ih left)

end Clauses

theorem Access.ofWords_of_perm {words others allowed : List String} {kind : RuleKind} {access : Access}
    (perm : words.Perm others) (success : ofWords kind allowed words = .ok access) :
    ofWords kind allowed others = .ok access := by
  have same : SortedSet.ofList words = SortedSet.ofList others :=
    ext_mem fun word => by simp only [mem_ofList, perm.mem_iff]
  unfold ofWords at success ⊢
  rw [← same, ← perm.isEmpty_eq]
  split at success
  next none => rwa [if_pos none]
  next some =>
    obtain ⟨_, checked, made⟩ := map_eq_ok.mp success
    rw [if_neg some]
    refine map_eq_ok.mpr ⟨(), checkWords_eq_ok_iff.mpr fun word member => ?_, made⟩
    exact checkWords_eq_ok_iff.mp checked word (perm.mem_iff.mpr member)

namespace Clauses

/-- Bodies are read piecewise.  Texts whose quotation marks pair up give the same accesses, and the
same outcome for all conditions that are taken out, in whatever order they are joined. -/
theorem read_piecewise :
    (∀ (first second : List Char) (found : Clauses), read first = .ok found → Even (first.count '"') →
      ∀ whole, read (first ++ ' ' :: second) = .ok whole ↔ ∃ rest, read second = .ok rest ∧
        whole = ⟨found.access ++ rest.access, found.conditions ++ rest.conditions⟩) ∧
    ∀ segments reordered : List (List Char), segments.Perm reordered →
      (∀ s ∈ segments, Even (s.count '"') ∧ ∃ found, read s = .ok found) →
      ∃ whole other, read ([' '].intercalate segments) = .ok whole ∧
        read ([' '].intercalate reordered) = .ok other ∧
        SortedSet.ofList whole.access = SortedSet.ofList other.access ∧
        (∀ kind allowed access, Access.ofWords kind allowed whole.access = .ok access ↔
          Access.ofWords kind allowed other.access = .ok access) ∧
        (∀ key, (whole.take key).map Prod.fst = (other.take key).map Prod.fst) ∧
        ∀ keys, whole.takeEach keys = other.takeEach keys := by
  refine ⟨fun first second found success paired whole => read_append_space_iff paired success, ?_⟩
  intro segments reordered perm valid
  have access := perm.flatMap_right fun s => (clausesOf s).access
  have conditions := perm.flatMap_right fun s => (clausesOf s).conditions
  refine ⟨_, _, read_intercalate valid, read_intercalate fun s member => valid s (perm.mem_iff.mpr member),
    ?_, ?_, map_take_of_perm conditions, takeEach_of_perm conditions⟩
  · exact ext_mem fun word => by simp only [mem_ofList, access.mem_iff]
  · exact fun kind allowed granted => ⟨Access.ofWords_of_perm access, Access.ofWords_of_perm access.symm⟩

/-- A list with a quoted parenthesis, a word, and a condition without a key. -/
theorem read_piecewise_quoted :
    let first := "peer=(label=\"a ) b\")".toList
    (∀ whole, read (first ++ ' ' :: "send ==x".toList) = .ok whole ↔ ∃ rest, read "send ==x".toList = .ok rest ∧
        whole = ⟨rest.access, ("peer", .list ["label=a ) b"]) :: rest.conditions⟩) ∧
      ∃ whole other, read "peer=(label=\"a ) b\") send ==x".toList = .ok whole ∧
        read "==x peer=(label=\"a ) b\") send".toList = .ok other ∧
        ∀ key, (whole.take key).map Prod.fst = (other.take key).map Prod.fst := by
  intro first
  have peer : read first = .ok ⟨[], [("peer", .list ["label=a ) b"])]⟩ := by decide +kernel
  have word : read "send".toList = .ok ⟨["send"], []⟩ := by decide +kernel
  have keyless : read "==x".toList = .ok ⟨[], [("", .single "=x")]⟩ := by decide +kernel
  refine ⟨read_piecewise.1 first _ _ peer (by decide), ?_⟩
  have valid : ∀ s ∈ [first, "send".toList, "==x".toList], Even (s.count '"') ∧ ∃ found, read s = .ok found := by
    simp only [List.forall_mem_cons]
    exact ⟨⟨by decide, _, peer⟩, ⟨by decide, _, word⟩, ⟨by decide, _, keyless⟩, by simp⟩
  have turned : [first, "send".toList, "==x".toList].Perm ["==x".toList, first, "send".toList] := by decide
  obtain ⟨whole, other, joined, reordered, _, _, taken, _⟩ := read_piecewise.2 _ _ turned valid
  exact ⟨whole, other, joined, reordered, taken⟩

end Clauses

end ArmorPolicy
