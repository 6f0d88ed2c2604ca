import ArmorPolicy.Proofs.Include.Memo

/-!
# What the memo changes

A file that is in the memo is read again without it to the same result, as all that it asks for is in the
memo too and no file in progress is among it.  So reading with a larger memo gives what reading with a
smaller one gives.  There are two exceptions, as names have several spellings: a file keeps the spelling
under which it was read first, and a spelling that leads to no file is reported only as long as the file
has not been read under another one.
-/

namespace ArmorPolicy

variable {name : List String} {filename : String} {α β γ δ : Type} {files : FileSystem}
  {config : Config}

/-! ## Agreement -/

/-- The same fragment; its file may be spelled in another way. -/
structure Fragment.Respelled (first second : Fragment) : Prop where
  preamble : first.preamble = second.preamble
  profileNames : first.profileNames = second.profileNames
  rules : first.rules = second.rules
  filename : Path.components first.filename = Path.components second.filename

theorem Fragment.Respelled.refl (fragment : Fragment) : fragment.Respelled fragment := ⟨rfl, rfl, rfl, rfl⟩

/-- The same error, or values that are related, unless the first result reports a misspelled path. -/
inductive Agrees (files : FileSystem) (same : α → β → Prop) : Checked α → Checked β → Prop
  | ok {a : α} {b : β} (related : same a b) : Agrees files same (.ok a) (.ok b)
  | error (error : PolicyError) : Agrees files same (.error error) (.error error)
  | misspelled {key : String} (location : Option Location) (result : Checked β)
      (misspelled : files.Misspelled key) :
      Agrees files same (.error (.policy (.includeMissing key) location)) result

namespace Agrees

theorem imp {same other : α → β → Prop} {first : Checked α} {second : Checked β}
    (weaker : ∀ a b, same a b → other a b) (agrees : Agrees files same first second) :
    Agrees files other first second := by
  cases agrees with
  | ok related => exact .ok (weaker _ _ related)
  | error error => exact .error error
  | misspelled location result misspelled => exact .misspelled location _ misspelled

theorem of_error {same : α → β → Prop} {other : γ → δ → Prop} {error : PolicyError} {b : β}
    (agrees : Agrees files same (.error error) (.ok b)) (filename : String) (line : Nat)
    (result : Checked δ) : Agrees files other (.error (error.located filename line)) result := by
  cases agrees with
  | misspelled location _ misspelled =>
    cases location <;> exact .misspelled _ result misspelled

theorem located {same : α → β → Prop} {other : γ → δ → Prop} {first second : PolicyError}
    (agrees : Agrees files same (.error first) (.error second)) (filename : String) (line : Nat) :
    Agrees files other (.error (first.located filename line)) (.error (second.located filename line)) := by
  cases agrees with
  | error error => exact .error _
  | misspelled location result misspelled =>
    cases location <;> exact .misspelled _ _ misspelled

end Agrees

/-- The results agree, and the memos are related where there is a value. -/
structure Alike (files : FileSystem) (related : Memo → Memo → Prop) (same : α → β → Prop)
    (first : Checked α × Memo) (second : Checked β × Memo) : Prop where
  results : Agrees files same first.1 second.1
  memos : ∀ a, first.1 = .ok a → related first.2 second.2

theorem Alike.bind {related later : Memo → Memo → Prop} {same : α → β → Prop} {other : γ → δ → Prop}
    {first : Loading α} {second : Loading β} {firstNext : α → Loading γ} {secondNext : β → Loading δ}
    {smaller larger : Memo} (before : Alike files related same (first smaller) (second larger))
    (next : ∀ a b smaller larger, same a b → related smaller larger →
      Alike files later other (firstNext a smaller) (secondNext b larger)) :
    Alike files later other (first.bind firstNext smaller) (second.bind secondNext larger) := by
  obtain ⟨results, memos⟩ := before
  simp only [Loading.bind]
  rcases left : first smaller with ⟨firstError | a, firstAfter⟩ <;>
    rcases right : second larger with ⟨secondError | b, secondAfter⟩ <;>
    rw [left, right] at results memos
  · refine ⟨?_, by rintro a ⟨⟩⟩
    cases results with
    | error => exact .error _
    | misspelled location result misspelled => exact .misspelled location _ misspelled
  · refine ⟨?_, by rintro a ⟨⟩⟩
    cases results with
    | misspelled location result misspelled => exact .misspelled location _ misspelled
  · cases results
  · cases results with
    | ok agreed => exact next a b firstAfter secondAfter agreed (memos a rfl)

namespace Include

open Option Reader

variable {chain : List (List String)} {depth : Nat} {path text : String} {smaller larger : Memo}

theorem alike_answer {loadOther : String → Loading Fragment} {related : Memo → Memo → Prop}
    {requests : List (Nat × String)}
    (step : ∀ before line path behind, requests = before ++ (line, path) :: behind →
      ∀ first second, Extends chain smaller first →
        (∀ request ∈ before, (first.get? (files.includeName request.2)).isSome) → related first second →
        Alike files related (fun _ _ => True) (load files config depth chain path first)
          (loadOther path second)) (start : related smaller larger) :
    Alike files related (fun _ _ => True)
      (answer (load files config depth chain) filename requests smaller)
      (answer loadOther filename requests larger) := by
  refine answer_related (fun _ _ agreed => ⟨.ok trivial, fun _ _ => agreed⟩) ?_ start
  intro before line path behind split first second grown known agreed
  have one := step before line path behind split first second grown known agreed
  rw [answer_cons]
  rcases attempt : load files config depth chain path first with ⟨firstError | fragment, firstNext⟩ <;>
    rcases right : loadOther path second with ⟨secondError | other, secondNext⟩ <;>
    rw [attempt, right] at one
  · exact .inr ⟨_, _, rfl, one.results.located filename line, by rintro _ ⟨⟩⟩
  · exact .inr ⟨_, _, rfl, one.results.of_error filename line _, by rintro _ ⟨⟩⟩
  · cases one.results
  · exact .inl ⟨_, _, _, _, rfl, rfl, one.memos fragment rfl⟩

/-! ## Memos -/

/-- What the smaller memo knows, the larger one knows too, perhaps under another spelling. -/
def Within (smaller larger : Memo) : Prop :=
  ∀ name fragment, smaller.get? name = some fragment →
    ∃ other, larger.get? name = some other ∧ fragment.Respelled other

namespace Within

theorem unknown (within : Within smaller larger) (absent : larger.get? name = none) :
    smaller.get? name = none := by
  cases found : smaller.get? name with
  | none => rfl
  | some fragment =>
    obtain ⟨other, present, _⟩ := within name fragment found
    rw [absent] at present
    cases present

theorem isSome (within : Within smaller larger) (known : (smaller.get? name).isSome) :
    (larger.get? name).isSome := by
  obtain ⟨fragment, found⟩ := isSome_iff_exists.mp known
  obtain ⟨other, present, _⟩ := within name fragment found
  rw [present]
  rfl

theorem insert_left {fragment other : Fragment} (within : Within smaller larger)
    (present : larger.get? name = some other) (same : fragment.Respelled other) :
    Within (smaller.insert name fragment) larger := by
  intro known entry found
  rw [SortedMap.get?_insert] at found
  split at found
  next here =>
    obtain rfl : known = name := eq_of_beq here
    obtain rfl : fragment = entry := some.inj found
    exact ⟨other, present, same⟩
  · exact within known entry found

theorem insert {fragment other : Fragment} (within : Within smaller larger)
    (absent : larger.get? name = none) (same : fragment.Respelled other) :
    Within (smaller.insert name fragment) (larger.insert name other) := by
  refine insert_left ?_ (by rw [SortedMap.get?_insert, if_pos (beq_self_eq_true _)]) same
  intro known entry found
  obtain ⟨present, inLarger, respelled⟩ := within known entry found
  refine ⟨present, ?_, respelled⟩
  rw [SortedMap.get?_insert, if_neg]
  · exact inLarger
  · intro here
    rw [eq_of_beq here, absent] at inLarger
    cases inLarger

end Within

theorem answer_ofChecked {stored : String → Fragment} (requests : List (Nat × String)) (memo : Memo) :
    answer (fun path => .ofChecked (.ok (stored path))) filename requests memo = (.ok (), memo) := by
  induction requests with
  | nil => rfl
  | cons request rest ih =>
    rw [answer_cons]
    exact ih

section Known

variable {rank : List String → Nat} {fragment : Fragment}

/-- The files in progress that are known have higher ranks. -/
def Above (larger : Memo) (rank : List String → Nat) (name : List String)
    (chain : List (List String)) : Prop :=
  ∀ other ∈ chain, (larger.get? other).isSome = true → rank name < rank other

/-- A known file is not at the place of a file in progress, which would wait for a file of a lower
rank. -/
theorem unused_lt_of_settled (settled : Settled files config larger rank name fragment)
    (source : files.textOf? name = some text) (linked : Linked files config smaller name chain)
    (above : Above larger rank name chain) :
    (unused files (name :: chain)).length < (unused files chain).length := by
  obtain ⟨_, text', source', _, below⟩ := settled
  obtain rfl : text = text' := some.inj (source.symm.trans source')
  refine (placed_or_unused_lt chain source).resolve_left ?_
  rintro ⟨last, inside, same⟩
  obtain ⟨next, among, again, before, line, asked, behind, lastSource, split, named, _⟩ :=
    linked.exists_suspended inside
  obtain rfl : again = text := some.inj (lastSource.symm.trans same)
  obtain ⟨nextKnown, lower⟩ := below (line, asked) (by simp [split])
  rw [named] at nextKnown lower
  rcases List.mem_cons.mp among with rfl | further
  · exact Nat.lt_irrefl _ lower
  · exact Nat.lt_asymm lower (above next further nextKnown)

theorem Above.asked {other : List String} (above : Above larger rank name chain)
    (lower : rank other < rank name) : Above larger rank other (name :: chain) := by
  intro inner inside innerKnown
  rcases List.mem_cons.mp inside with rfl | further
  · exact lower
  · exact Nat.lt_trans lower (above inner further innerKnown)

theorem alike_load_known (ranked : Ranked files config larger rank) (within : Within smaller larger)
    (linked : Linked files config smaller (files.includeName path) chain)
    (above : Above larger rank (files.includeName path) chain)
    (enough : (unused files chain).length < depth)
    (present : larger.get? (files.includeName path) = some fragment) :
    Alike files Within Fragment.Respelled (load files config depth chain path smaller)
      (.ok fragment, larger) := by
  induction depth generalizing chain path smaller fragment with
  | zero => cases enough
  | succ depth ih =>
    obtain ⟨spelled, text, source, gives, below⟩ := ranked _ fragment present
    cases known : smaller.get? (files.includeName path) with
    | some entry =>
      obtain ⟨other, found, same⟩ := within _ entry known
      obtain rfl : other = fragment := some.inj (found.symm.trans present)
      rw [load_known known]
      exact ⟨.ok same, fun _ _ => within⟩
    | none =>
      have outside : files.includeName path ∉ chain :=
        fun inside => Nat.lt_irrefl _ (above _ inside (by simp [present]))
      cases file : files.isFile (files.includeKey path) with
      | false =>
        have leads : (files.textOf? (files.includeName path)).isSome := by simp [source]
        rw [load, loadOnce_missing known outside file]
        exact ⟨.misspelled none _ ⟨file, leads⟩, by rintro _ ⟨⟩⟩
      | true =>
        have less := unused_lt_of_settled (ranked _ fragment present) source linked above
        let stored (asked : String) : Fragment := (larger.get? (files.includeName asked)).getD fragment
        have answered : Alike files (fun first second => Within first larger ∧ second = larger)
            (fun _ _ => True)
            (answer (load files config depth (files.includeName path :: chain))
              (files.includeKey path) (requestsOf files config text) smaller)
            (answer (fun asked => .ofChecked (.ok (stored asked)))
              (files.includeKey path) (requestsOf files config text) larger) := by
          refine alike_answer ?_ ⟨within, rfl⟩
          rintro before line asked behind split first second grown knownBefore ⟨inner, rfl⟩
          obtain ⟨askedKnown, lower⟩ := below (line, asked) (by simp [split])
          obtain ⟨entry, found⟩ := isSome_iff_exists.mp askedKnown
          have stillLinked : Linked files config first (files.includeName asked)
              (files.includeName path :: chain) :=
            ⟨⟨text, before, line, asked, behind, source, split, rfl, knownBefore⟩, linked.mono grown⟩
          have one := ih inner stillLinked (above.asked lower) (by omega) found
          have recalled : stored asked = entry := by simp [stored, found]
          rw [recalled]
          exact ⟨one.results.imp fun _ _ _ => trivial, fun a loaded => ⟨one.memos a loaded, rfl⟩⟩
        have respelled : Fragment.Respelled { fragment with filename := files.includeKey path }
            fragment := ⟨rfl, rfl, rfl, spelled.symm⟩
        rw [load_file known outside file, FileSystem.readText_of_textOf? file source]
        have recalled : (.ok fragment, larger) =
            ((answer (fun asked => .ofChecked (.ok (stored asked))) (files.includeKey path)
              (requestsOf files config text)).bind fun _ => .ofChecked (.ok fragment)) larger := by
          simp only [Loading.bind, answer_ofChecked, Loading.ofChecked]
        rw [recalled]
        refine answered.bind ?_
        rintro _ _ first second _ ⟨inner, rfl⟩
        rw [given_renamed gives]
        exact ⟨.ok respelled, fun _ _ => inner.insert_left present respelled⟩

end Known

/-- The memos of two readings that go on inside of the same files, none of which is known. -/
structure Aligned (files : FileSystem) (config : Config) (chain : List (List String))
    (smaller larger : Memo) : Prop where
  within : Within smaller larger
  valid : Valid files config larger
  fresh : ∀ other ∈ chain, larger.get? other = none

theorem alike_answer_placed {related : Memo → Memo → Prop} {last : List String}
    (aligned : Aligned files config (name :: chain) smaller larger)
    (linked : Linked files config smaller name chain) (inside : last ∈ chain)
    (source : files.textOf? last = some text) :
    Alike files related (fun _ _ => True)
      (answer (load files config (depth + 1) (name :: chain)) filename (requestsOf files config text) smaller)
      (answer (load files config (depth + 1) (name :: chain)) filename (requestsOf files config text)
        larger) := by
  obtain ⟨next, among, again, before, line, asked, behind, lastSource, split, rfl, known⟩ :=
    linked.exists_suspended inside
  obtain rfl : again = text := some.inj (lastSource.symm.trans source)
  have unknown := aligned.fresh _ among
  rw [split, answer_cycle known (aligned.within.unknown unknown) among,
    answer_cycle (fun request earlier => aligned.within.isSome (known request earlier)) unknown among]
  exact ⟨.error _, by rintro _ ⟨⟩⟩

theorem Aligned.alike {same : Fragment → Fragment → Prop}
    (aligned : Aligned files config chain smaller larger)
    (alike : Alike files Within same (load files config depth chain path smaller)
      (load files config depth chain path larger)) :
    Alike files (Aligned files config chain) same (load files config depth chain path smaller)
      (load files config depth chain path larger) where
  results := alike.results
  memos a loaded :=
    { within := alike.memos a loaded
      valid := aligned.valid.load depth chain path
      fresh := fun other inside =>
        (extends_load files config depth chain path larger).spares other inside (aligned.fresh other inside) }

theorem alike_load (aligned : Aligned files config chain smaller larger)
    (linked : Linked files config smaller (files.includeName path) chain)
    (enough : (unused files chain).length + 2 ≤ depth) :
    Alike files Within Fragment.Respelled (load files config depth chain path smaller)
      (load files config depth chain path larger) := by
  induction depth generalizing chain path smaller larger with
  | zero => cases enough
  | succ depth ih =>
    cases present : larger.get? (files.includeName path) with
    | some fragment =>
      obtain ⟨rank, _, _, ranked⟩ := aligned.valid
      have above : Above larger rank (files.includeName path) chain := by
        intro other inside otherKnown
        rw [aligned.fresh other inside] at otherKnown
        cases otherKnown
      rw [load_known present]
      exact alike_load_known ranked aligned.within linked above (by omega) present
    | none =>
      have absent := aligned.within.unknown present
      by_cases inside : files.includeName path ∈ chain
      · rw [load, loadOnce_cycle absent inside, loadOnce_cycle present inside]
        exact ⟨.error _, by rintro _ ⟨⟩⟩
      · cases file : files.isFile (files.includeKey path) with
        | false =>
          rw [load, loadOnce_missing absent inside file, loadOnce_missing present inside file]
          exact ⟨.error _, by rintro _ ⟨⟩⟩
        | true =>
          rw [load_file absent inside file, load_file present inside file]
          cases read : files.readText (files.includeKey path) with
          | error error => exact ⟨.error _, by rintro _ ⟨⟩⟩
          | ok text =>
            have source := FileSystem.textOf?_of_readText read
            have inner : Aligned files config (files.includeName path :: chain) smaller larger :=
              ⟨aligned.within, aligned.valid, List.forall_mem_cons.mpr ⟨present, aligned.fresh⟩⟩
            have answered : Alike files (Aligned files config (files.includeName path :: chain))
                (fun _ _ => True)
                (answer (load files config depth (files.includeName path :: chain))
                  (files.includeKey path) (requestsOf files config text) smaller)
                (answer (load files config depth (files.includeName path :: chain))
                  (files.includeKey path) (requestsOf files config text) larger) := by
              rcases placed_or_unused_lt chain source with ⟨last, among, same⟩ | less
              · obtain ⟨further, rfl⟩ : ∃ further, depth = further + 1 := ⟨depth - 1, by omega⟩
                exact alike_answer_placed inner linked among same
              · refine alike_answer ?_ inner
                intro before line asked behind split first second grown known here
                have stillLinked : Linked files config first (files.includeName asked)
                    (files.includeName path :: chain) :=
                  ⟨⟨text, before, line, asked, behind, source, split, rfl, known⟩, linked.mono grown⟩
                have one := here.alike (ih here stillLinked (by omega))
                exact ⟨one.results.imp fun _ _ _ => trivial, one.memos⟩
            refine answered.bind ?_
            intro _ _ first second _ here
            cases given config (files.includeKey path) text with
            | error error => exact ⟨.error error, by rintro _ ⟨⟩⟩
            | ok fragment =>
              refine ⟨.ok (.refl fragment), fun _ _ => ?_⟩
              exact here.within.insert (here.fresh _ (.head _)) (.refl fragment)

end Include

end ArmorPolicy
