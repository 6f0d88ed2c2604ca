import ArmorPolicy.Proofs.Rule.Fault
import ArmorPolicy.Proofs.Rule.Segment
import ArmorPolicy.Proofs.Rule.Values
import Mathlib.Data.PFun

/-!
# Progress through a text

A loop takes turns until one of them leaves it with a result, and nothing bounds their number.
The clauses of a body are read in a loop, and the items of a list in a loop of their own.  A word is
empty where a separator or a stop sign stands, and taking it off leaves the text as it was.  Both loops
skip the separators first, and read the signs that could stop a word there in a way of their own, so
that every turn moves on in the text.  Both loops are therefore left for every text, and the check that
an item was taken off never fails.

The values of an assignment are taken off its text in a loop, too.  Every turn shortens the text, so
that this loop is left for every text as well.  From tokens with single spaces between them, each between
quotation marks or bare, every turn takes one, whatever stands between the marks; a bare one that ends in
a comma is refused.
-/

namespace ArmorPolicy

open List

/-! ## Loops -/

section Loops

universe u v

variable {σ : Type u} {ρ : Type v} {turn : σ → ρ ⊕ σ} {s next : σ} {result : ρ}

/-- The result with which a loop is left from a state; there is none where it goes on for ever. -/
def loop (turn : σ → ρ ⊕ σ) : σ →. ρ := PFun.fix (turn : σ →. ρ ⊕ σ)

theorem loop_leaves (leaves : turn s = .inl result) : loop turn s = Part.some result :=
  Part.eq_some_iff.mpr (PFun.fix_stop (Part.mem_some_iff.mpr leaves.symm))

theorem loop_goes (goes : turn s = .inr next) : loop turn s = loop turn next :=
  PFun.fix_fwd_eq (Part.mem_some_iff.mpr goes.symm)

end Loops

/-! ## Clauses -/

namespace Clauses

variable {rest t text : List Char} {i : Nat}

/-- What is left of a text starts at a place behind `i` that is not behind the end of the text.  As words
leave suffixes, the second part holds of whatever they leave. -/
def Advances (text : List Char) (i : Nat) (rest : List Char) : Prop :=
  ∃ j, i < j ∧ j ≤ text.length ∧ rest = text.drop j

theorem advances_of_suffix (suffix : rest <:+ text) (shorter : rest.length < (text.drop i).length) :
    Advances text i rest := by
  rw [length_drop] at shorter
  exact ⟨text.length - rest.length, by omega, Nat.sub_le _ _, suffix_iff_eq_drop.mp suffix⟩

theorem scanned_suffix (text : List Char) : Scanned (· <:+ text) (fun _ => True) (fun _ => True) where
  tail _ suffix := (suffix_cons _ _).trans suffix
  behind stop s suffix := (wordFrom_spec stop false s).2.1.trans suffix
  single _ _ _ := trivial
  item _ _ _ := trivial

theorem suffix_of_dropWhile (skipped : (text.drop i).dropWhile isSeparator = t) :
    t <:+ text ∧ t.length ≤ (text.drop i).length :=
  ⟨skipped ▸ (scanned_suffix text).dropWhile (drop_suffix i text),
    skipped ▸ length_dropWhile_le isSeparator _⟩

/-! ## Items of a list -/

/-- One turn takes an item off a list, unless the list ends. -/
def itemTurn : List Char × List String → Checked (List String × List Char) ⊕ List Char × List String
  | (s, items) =>
    match s.dropWhile isSeparator with
    | [] => .inl (refuse .unbalancedOpen)
    | ')' :: rest => .inl (.ok (items, rest))
    | c :: t =>
      let (item, rest) := word (· == ')') (c :: t)
      if rest.length < (c :: t).length then .inr (rest, items ++ [String.ofList item])
      else .inl (refuse .strayCharacterInList)

theorem itemTurn_moves (text : List Char) (i : Nat) (items : List String) :
    match itemTurn (text.drop i, items) with
    | .inl (.error error) => error = .fault .unbalancedOpen
    | .inl (.ok (all, rest)) => all = items ∧ Advances text i rest
    | .inr (rest, _) => Advances text i rest := by
  cases skipped : (text.drop i).dropWhile isSeparator with
  | nil => simp [itemTurn, skipped, refuse]
  | cons c t =>
    obtain ⟨suffix, fits⟩ := suffix_of_dropWhile skipped
    by_cases closed : c = ')'
    · subst closed
      simp only [itemTurn, skipped]
      exact ⟨trivial, advances_of_suffix ((suffix_cons _ _).trans suffix) fits⟩
    · have shorter := length_item_lt skipped closed
      simp only [itemTurn, skipped, if_pos shorter]
      exact advances_of_suffix ((scanned_suffix text).behind _ _ suffix) (Nat.lt_of_lt_of_le shorter fits)

theorem loop_itemTurn (s : List Char) (items : List String) :
    loop itemTurn (s, items) = Part.some ((group s).map fun (others, rest) => (items ++ others, rest)) := by
  fun_induction group s generalizing items with
  | case1 s skipped => exact loop_leaves (by simp [itemTurn, skipped, Except.map, refuse])
  | case2 s rest skipped => exact loop_leaves (by simp [itemTurn, skipped, Except.map])
  | case3 s c t notEnd skipped item rest found shorter _ ih =>
    have goes : itemTurn (s, items) = .inr (rest, items ++ [String.ofList item]) := by
      simp only [itemTurn, skipped, found, if_pos shorter]
    rw [loop_goes goes, ih]
    cases group rest <;> simp [Except.map]
  | case4 s c t notEnd skipped item rest found stays =>
    exact loop_leaves (by simp only [itemTurn, skipped, found, if_neg stays]; rfl)

/-! ## Clauses of a body -/

/-- One turn takes a clause off a body, unless it ends or the clause is at fault. -/
def clauseTurn (body : List Char) : List Char × Clauses → Checked Clauses ⊕ List Char × Clauses
  | (s, clauses) =>
    match s.dropWhile isSeparator with
    | [] => .inl (.ok clauses)
    | c :: t =>
      match step body (c :: t) with
      | .error fault => .inl (.error fault)
      | .ok (found, rest) => .inr (rest, clauses ++ found.addTo {})

theorem clauseTurn_moves (text : List Char) (i : Nat) (clauses : Clauses) :
    match clauseTurn text (text.drop i, clauses) with
    | .inl (.error error) => BodyFault text error
    | .inl (.ok all) => all = clauses
    | .inr (rest, _) => Advances text i rest := by
  cases skipped : (text.drop i).dropWhile isSeparator with
  | nil => simp [clauseTurn, skipped]
  | cons c t =>
    obtain ⟨suffix, fits⟩ := suffix_of_dropWhile skipped
    cases read : step text (c :: t) with
    | error fault =>
      simp only [clauseTurn, skipped, read]
      exact bodyFault_of_step read
    | ok result =>
      have shorter := length_step_lt (not_isSeparator_of_dropWhile skipped) read
      simp only [clauseTurn, skipped, read]
      exact advances_of_suffix ((scanned_suffix text).step suffix read).1 (Nat.lt_of_lt_of_le shorter fits)

theorem append_addTo (first second : Clauses) (found : Step) :
    first ++ found.addTo {} ++ second = first ++ found.addTo second := by
  change Clauses.mk _ _ = Clauses.mk _ _
  cases found with
  | access words => simp [Step.addTo, withAccess]
  | condition key value => simp [Step.addTo, withCondition]

theorem loop_clauseTurn (body s : List Char) (clauses : Clauses) :
    loop (clauseTurn body) (s, clauses) = Part.some ((readFrom body s).map (clauses ++ ·)) := by
  fun_induction readFrom body s generalizing clauses with
  | case1 s skipped =>
    have all : clauses ++ {} = clauses := congrArg₂ mk (append_nil _) (append_nil _)
    exact loop_leaves (by simp [clauseTurn, skipped, Except.map, all])
  | case2 s c t skipped fault failed =>
    exact loop_leaves (by simp [clauseTurn, skipped, failed, Except.map])
  | case3 s c t skipped found rest read _ ih =>
    have goes : clauseTurn body (s, clauses) = .inr (rest, clauses ++ found.addTo {}) := by
      simp [clauseTurn, skipped, read]
    rw [loop_goes goes, ih]
    cases readFrom body rest <;> simp [Except.map, append_addTo]

/-- Reading a body moves on with every turn.  A turn over the items of a list or over the clauses of a
body goes on behind the place where it started and within the text, unless the text ends or is at fault;
both loops are left for every text, with what is read of it; and neither a list nor a body is refused
for an item that takes nothing off. -/
theorem turns_advance :
    (∀ text i items, match itemTurn (text.drop i, items) with
      | .inl (.error error) => error = .fault .unbalancedOpen
      | .inl (.ok (all, rest)) => all = items ∧ Advances text i rest
      | .inr (rest, _) => Advances text i rest) ∧
    (∀ text i clauses, match clauseTurn text (text.drop i, clauses) with
      | .inl (.error error) => BodyFault text error
      | .inl (.ok all) => all = clauses
      | .inr (rest, _) => Advances text i rest) ∧
    (∀ s, loop itemTurn (s, []) = Part.some (group s)) ∧
    (∀ body, loop (clauseTurn body) (body, {}) = Part.some (read body)) ∧
    PolicyFault.strayCharacterInList.message = "Unexpected character in '(...)' list" ∧
    (∀ s, group s ≠ refuse .strayCharacterInList) ∧ ∀ body, read body ≠ refuse .strayCharacterInList := by
  refine ⟨itemTurn_moves, clauseTurn_moves, fun s => ?_, fun body => ?_, rfl, fun s failed => ?_,
    fun body failed => ?_⟩
  · rw [loop_itemTurn]
    cases group s <;> rfl
  · rw [loop_clauseTurn, read]
    cases readFrom body body <;> rfl
  · cases (bodyFault_of_group failed : BodyFault s _)
  · cases bodyFault_of_readFrom failed

end Clauses

/-! ## Values -/

namespace Assignment

open Text Line

variable {s : List Char}

/-- One turn takes a value off the text that is left, if there is one. -/
def valueTurn : List Char × SortedSet String → Checked (SortedSet String) ⊕ List Char × SortedSet String
  | (s, values) =>
    match firstValue? s with
    | none => .inl (if s.isEmpty then .ok values else refuse (.assignmentLeftover (String.ofList s)))
    | some (word, rest) =>
      if word.getLast? = some ',' then .inl (refuse .assignmentTrailingComma)
      else .inr (rest, values.insert (valueOf word))

theorem loop_valueTurn {bound : Nat} (enough : s.length ≤ bound) (values : SortedSet String) :
    loop valueTurn (s, values) = Part.some (valuesFrom bound s values) := by
  induction bound generalizing s values with
  | zero =>
    obtain rfl := length_eq_zero_iff.mp (Nat.le_zero.mp enough)
    exact loop_leaves rfl
  | succ bound ih =>
    rw [valuesFrom]
    cases found : firstValue? s with
    | none => exact loop_leaves (by simp [valueTurn, found])
    | some cut =>
      obtain ⟨word, rest⟩ := cut
      dsimp only
      split
      next comma => exact loop_leaves (by simp [valueTurn, found, comma])
      next noComma =>
        have shorter := length_firstValue?_lt found
        have goes : valueTurn (s, values) = .inr (rest, values.insert (valueOf word)) := by
          simp [valueTurn, found, noComma]
        rw [loop_goes goes]
        exact ih (by omega) _

theorem loop_separate (s : List Char) : loop valueTurn (trim s, .empty) = Part.some (separate s) :=
  loop_valueTurn (trim_sublist s).length_le _

theorem separate_congr {t : List Char} (same : trim s = trim t) : separate s = separate t := by
  have left := loop_separate s
  rw [same, loop_separate t] at left
  exact (Part.some_inj.mp left).symm

/-- Values are tokenised exactly.  Tokens with single spaces between them are refused where a bare one
ends in a comma, and give the set of their values otherwise; and the loop that takes values off is left
with a result for every text. -/
theorem separate_exact :
    (∀ tokens : List Token, if ∃ token ∈ tokens, token.EndsInComma then
        separate (spaced (tokens.map Token.text)).toList = refuse .assignmentTrailingComma
      else ∃ values, separate (spaced (tokens.map Token.text)).toList = .ok values ∧
        ∀ value, value ∈ values.toList ↔ ∃ token ∈ tokens, token.value = value) ∧
    ∀ s, loop valueTurn (trim s, .empty) = Part.some (separate s) := by
  refine ⟨fun tokens => ?_, loop_separate⟩
  have separated := separate_joined tokens (forall_mem_nil _)
  rw [append_nil] at separated
  split
  next comma => exact separated.trans (if_pos comma)
  next noComma =>
    refine ⟨_, separated.trans (if_neg noComma), fun value => ?_⟩
    rw [SortedSet.mem_ofList, mem_map]

end Assignment

end ArmorPolicy
