import ArmorPolicy.Proofs.Line.Statement
import ArmorPolicy.Proofs.Reader.Numbering

/-!
# Skipped conditional blocks

From the line that opens a conditional block to the brace that closes it, lines are only counted for
the blocks that they open and close.  A whole block leaves the state as it found it, so a text is read
as if the block were not there.
-/

namespace ArmorPolicy

open List Text Line

variable {block rest : List (List Char)} {line : List Char} {number : Nat}

/-! ## The line that opens a block -/

namespace LineForm

theorem ofLine_of_isConditional (starts : StartsSolid line)
    (conditional : isConditional line) : ofLine line = .conditional := by
  have word : afterWord? "if" line ≠ none := by
    intro absent
    simp [isConditional, trimStart_of_startsSolid starts, absent] at conditional
  obtain ⟨rest, rfl⟩ : ∃ rest, line = 'i' :: 'f' :: rest := by
    have first : "if".toList <+: line := Decidable.byContradiction fun absent =>
      word (afterWord?_eq_none absent)
    obtain ⟨rest, rfl⟩ := first
    exact ⟨rest, rfl⟩
  have noHeader : header? ('i' :: 'f' :: rest) = none := rfl
  have noHat : hat? ('i' :: 'f' :: rest) = none := rfl
  have noEnd : isClosing ('i' :: 'f' :: rest) = false := rfl
  simp [ofLine, noHeader, noHat, noEnd, conditional]

theorem isConditional_ne_nil (conditional : isConditional line) : line ≠ [] := by
  rintro rfl
  cases conditional

end LineForm

namespace Reader

/-! ## The blocks that are open -/

/-- How many blocks are open behind lines of a conditional block, where empty lines do not count. -/
def depthBehind (blocks : Nat) (lines : List (List Char)) : Nat :=
  (content lines).foldl blocksBehind blocks

theorem depthBehind_cons_of_blank (blank : (trim line).isEmpty) (blocks : Nat)
    (lines : List (List Char)) : depthBehind blocks (line :: lines) = depthBehind blocks lines := by
  rw [depthBehind, content_cons, if_pos blank, depthBehind]

theorem depthBehind_cons_of_solid (solid : ¬(trim line).isEmpty) (blocks : Nat) (lines : List (List Char)) :
    depthBehind blocks (line :: lines) = depthBehind (blocksBehind blocks (trim line)) lines := by
  rw [depthBehind, content_cons, if_neg solid, foldl_cons, depthBehind]

/-- The lines stay inside of the block in which they stand: they never close it, and they close all the
blocks that they open. -/
structure Enclosed (block : List (List Char)) : Prop where
  stays : ∀ count ≤ block.length, 1 ≤ depthBehind 1 (block.take count)
  closes : depthBehind 1 block = 1

instance (block : List (List Char)) : Decidable (Enclosed block) :=
  decidable_of_iff ((∀ count ≤ block.length, 1 ≤ depthBehind 1 (block.take count)) ∧
    depthBehind 1 block = 1) ⟨fun ⟨stays, closes⟩ => ⟨stays, closes⟩, fun ⟨stays, closes⟩ => ⟨stays, closes⟩⟩

/-! ## Plans over skipped lines -/

section Skip

variable {kind : TextKind} {hatsFor : String → List String} {state : ReaderState}

theorem plan_skipped_line (clear : state.pending = none) (skips : state.skipping ≠ 0)
    (solid : ¬(trim line).isEmpty) :
    plan kind hatsFor number (line :: rest) state =
      plan kind hatsFor (number + 1) rest
        { state with skipping := blocksBehind state.skipping (trim line) } := by
  have silent : asked state (trim line) = [] := by rw [asked, if_pos skips]
  have stepped : stepAs kind hatsFor state (trim line) number =
      .ok { state with skipping := blocksBehind state.skipping (trim line) } := by
    rw [stepAs, if_pos skips, skipLine_eq]
  exact plan_cons clear (by simpa using solid) silent stepped

theorem plan_skipped (clear : state.pending = none)
    (stays : ∀ count ≤ block.length, 1 ≤ depthBehind state.skipping (block.take count)) :
    plan kind hatsFor number (block ++ rest) state =
      plan kind hatsFor (number + block.length) rest
        { state with skipping := depthBehind state.skipping block } := by
  induction block generalizing number state with
  | nil => rfl
  | cons line block ih =>
    have skips : state.skipping ≠ 0 := Nat.one_le_iff_ne_zero.mp (stays 0 (Nat.zero_le _))
    have numbered : number + (line :: block).length = number + 1 + block.length := by
      rw [length_cons]
      omega
    have further : ∀ count ≤ block.length,
        1 ≤ depthBehind state.skipping (line :: block.take count) := fun count within =>
      stays (count + 1) (Nat.succ_le_succ within)
    rw [cons_append, numbered]
    by_cases blank : (trim line).isEmpty
    · simp only [depthBehind_cons_of_blank blank] at further ⊢
      rw [plan, if_pos blank]
      exact ih clear further
    · have stillClear : ReaderState.pending
          { state with skipping := blocksBehind state.skipping (trim line) } = none := clear
      simp only [depthBehind_cons_of_solid blank] at further ⊢
      rw [plan_skipped_line clear skips blank, ih stillClear further]

theorem plan_conditional {opening : List Char} (clear : state.pending = none)
    (reads : state.skipping = 0) (conditional : LineForm.isConditional (trim opening))
    (enclosed : Enclosed block) :
    plan kind hatsFor number (opening :: (block ++ ['}'] :: rest)) state =
      plan kind hatsFor (number + 1 + block.length + 1) rest state := by
  have nonempty := LineForm.isConditional_ne_nil conditional
  have form := LineForm.ofLine_of_isConditional (startsSolid_trim nonempty) conditional
  have silent : asked state (trim opening) = [] := by simp [asked, reads, form]
  have opened : stepAs kind hatsFor state (trim opening) number = .ok { state with skipping := 1 } := by
    simp [stepAs, reads, form]
  have inside : ReaderState.pending { state with skipping := 1 } = none := clear
  have closed : blocksBehind 1 (trim ['}']) = state.skipping := by
    rw [reads]
    decide
  rw [plan_cons clear (by simpa using nonempty) silent opened, plan_skipped inside enclosed.stays]
  simp only [enclosed.closes]
  rw [plan_skipped_line inside Nat.one_ne_zero (by decide), closed]

theorem essence_plan_conditional {before : List (List Char)} {opening : List Char}
    {middle : ReaderState} (reached : (plan kind hatsFor number before state).result = .ok middle)
    (clear : middle.pending = none) (reads : middle.skipping = 0)
    (conditional : LineForm.isConditional (trim opening)) (enclosed : Enclosed block) :
    (plan kind hatsFor number (before ++ opening :: (block ++ ['}'] :: rest)) state).essence =
      (plan kind hatsFor number (before ++ rest) state).essence := by
  have later := @essence_plan kind hatsFor rest (number + before.length + 1 + block.length + 1)
    (number + before.length) middle
  rw [plan_append reached, plan_append reached, plan_conditional clear reads conditional enclosed]
  simp only [Plan.essence, Prod.mk.injEq] at later ⊢
  simp [later]

end Skip

end Reader

/-! ## Texts with a conditional block -/

/-- A conditional block in a text is inert, whatever stands in it.  With the block as without it the text
gives the same file, or the same error up to its line, and leaves the same included files behind. -/
theorem Reading.text_conditional (files : FileSystem) (filename : String) {session next : Session}
    {state : ReaderState} {before block after : List String} {opening : String}
    (oneLine : ∀ line ∈ before ++ opening :: (block ++ after), '\n' ∉ line.toList)
    (scanned : (Reader.readLines .profiles (Include.resolve files) 1 (before.map String.toList)
      { filename }).outcome session = (.ok state, next))
    (clear : state.pending = none) (reads : state.skipping = 0)
    (conditional : LineForm.isConditional (trim opening.toList) = true)
    (enclosed : Reader.Enclosed (block.map String.toList)) :
    let whole := "\n".intercalate (before ++ opening :: (block ++ "\x7d" :: after))
    let rest := "\n".intercalate (before ++ after)
    ((Reading.text files whole filename).outcome session).1.mapError PolicyError.unlined =
        ((Reading.text files rest filename).outcome session).1.mapError PolicyError.unlined ∧
      ((Reading.text files whole filename).outcome session).2.memo =
        ((Reading.text files rest filename).outcome session).2.memo := by
  intro whole rest
  have reached : (Reader.plan .profiles session.config.hatsFor 1 (before.map String.toList)
      { filename }).result = .ok state := by
    obtain ⟨warnings, outcome⟩ := Reader.follows_readLines (Include.follows_resolve files) .profiles 1
      (before.map String.toList) { filename } session rfl rfl
    rw [scanned] at outcome
    have performed := (Prod.mk.inj outcome).1.symm
    exact (Reader.perform_eq_ok (Prod.ext_iff.mpr ⟨performed, rfl⟩)).2
  have wholeLines : ∀ line ∈ before ++ opening :: (block ++ "\x7d" :: after), '\n' ∉ line.toList := by
    simp only [forall_mem_append, forall_mem_cons] at oneLine ⊢
    exact ⟨oneLine.1, oneLine.2.1, oneLine.2.2.1, by decide, oneLine.2.2.2⟩
  have restLines : ∀ line ∈ before ++ after, '\n' ∉ line.toList := by
    simp only [forall_mem_append, forall_mem_cons] at oneLine ⊢
    exact ⟨oneLine.1, oneLine.2.2.2⟩
  refine Reading.outcome_text_congr ?_
  rw [Reader.essence_plan_text wholeLines, Reader.essence_plan_text restLines]
  simp only [map_append, map_cons]
  exact Reader.essence_plan_conditional reached clear reads conditional enclosed

/-- A block with lines that are no statements, an unclosed quotation mark, a nested block, a second branch
and a brace in a comment, inside of a profile. -/
theorem Reading.text_conditional_malformed :
    let before := ["/a \x7b", "# note"]
    let opening := "  if not defined @\x7bx\x7d \x7b # maybe"
    let block := ["bogus,", "include \"", "  ^h \x7b", "/b", " \x7d # inner", "", "\x7d else if $y \x7b", "# \x7d"]
    let after := ["/c r,", "\x7d"]
    let whole := "\n".intercalate (before ++ opening :: (block ++ "\x7d" :: after))
    let rest := "\n".intercalate (before ++ after)
    (∃ state next, (Reader.readLines .profiles (Include.resolve {}) 1 (before.map String.toList)
        { filename := "f" }).outcome {} = (.ok state, next) ∧
          state.pending = none ∧ state.skipping = 0) ∧
      LineForm.isConditional (trim opening.toList) = true ∧
      Reader.Enclosed (block.map String.toList) ∧
      ((Reading.text {} rest "f").outcome {}).1.isOk = true ∧
      ((Reading.text {} whole "f").outcome {}).1.mapError PolicyError.unlined =
        ((Reading.text {} rest "f").outcome {}).1.mapError PolicyError.unlined := by
  intro before opening block after whole rest
  have conditional : LineForm.isConditional (trim opening.toList) = true := by decide +kernel
  have enclosed : Reader.Enclosed (block.map String.toList) := by decide +kernel
  have oneLine : ∀ line ∈ before ++ opening :: (block ++ after), '\n' ∉ line.toList := by decide +kernel
  have accepted : ((Reading.text {} rest "f").outcome {}).1.isOk = true := by decide +kernel
  obtain ⟨state, next, scanned, clear, reads⟩ := Reading.exists_ok
    ((Reader.readLines .profiles (Include.resolve {}) 1 (before.map String.toList)
      { filename := "f" }).outcome {})
    (fun state => state.pending = none ∧ state.skipping = 0) (by decide +kernel)
  exact ⟨⟨state, next, scanned, clear, reads⟩, conditional, enclosed, accepted,
    (Reading.text_conditional {} "f" oneLine scanned clear reads conditional enclosed).1⟩

end ArmorPolicy
