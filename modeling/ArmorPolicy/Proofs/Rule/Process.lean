import ArmorPolicy.Proofs.Rule.Clause

/-!
# Tracing, signals and user namespaces

The accesses are words of fixed lists, the signals have fixed names, and the peer is a pattern that a
condition can state.
-/

namespace ArmorPolicy

open List Text Line Clauses

/-! ## Tracing -/

namespace Ptrace

theorem isName_accessWords : ∀ word ∈ accessWords, IsName word := by decide

theorem ofParts_of_read {ptrace : Ptrace} {body : List Char} (isFor : ptrace.access.IsFor accessWords)
    (made : MadeOfText ptrace.peer)
    (read : Clauses.read body = .ok ⟨ptrace.access.words, stated "peer" (patternValue ptrace.peer)⟩) :
    ofParts body = .ok ptrace := by
  have taken : takePattern ⟨ptrace.access.words, stated "peer" (patternValue ptrace.peer)⟩ "peer" =
      .ok (ptrace.peer, ⟨ptrace.access.words, []⟩) := by
    rw [← append_nil (stated _ _)]
    exact takePattern_front made (by simp)
  simp only [ofParts, read, bind, Except.bind, Access.ofWords_words .ptrace isFor, taken, finish, make,
    Access.check_eq_ok .ptrace isFor]
  rfl

end Ptrace

/-! ## Signals -/

namespace Signal

theorem isName_accessWords : ∀ word ∈ accessWords, IsName word := by decide

theorem isName_of_signal {name : String} (valid : Signal.isName name) : IsName name := by
  have fixed : ∀ name ∈ names, IsName name := by decide
  have realTime : ∀ offset ∈ List.range 33, IsName ("rtmin+" ++ toString offset) := by decide
  rw [Signal.isName, Bool.or_eq_true] at valid
  rcases valid with isFixed | isRealTime
  · exact fixed name (by simpa using isFixed)
  · obtain ⟨offset, member, same⟩ := any_eq_true.mp isRealTime
    rw [eq_of_beq same]
    exact realTime offset member

def AreSignals (signals : Extent (SortedSet String)) : Prop :=
  ∀ set, signals = .only set → set.toList ≠ [] ∧ ∀ name ∈ set.toList, Signal.isName name = true

theorem checkSignals_eq_ok_iff {signals : Extent (SortedSet String)} :
    checkSignals signals = .ok () ↔ AreSignals signals := by
  cases signals with
  | all =>
    refine ⟨fun _ _ impossible => ?_, fun _ => rfl⟩
    cases impossible
  | only set =>
    have states : AreSignals (.only set) ↔ set.toList ≠ [] ∧ ∀ name ∈ set.toList, Signal.isName name :=
      ⟨fun all => all set rfl, fun valid other same => by cases same; exact valid⟩
    rw [states, checkSignals]
    by_cases empty : set.toList = []
    · simp [SortedSet.isEmpty, empty, reject]
    · have some : set.isEmpty = false := by simpa [SortedSet.isEmpty] using empty
      simp only [some, Bool.false_eq_true, if_false]
      split
      next name found =>
        have unknown := find?_some found
        refine ⟨fun impossible => (by cases impossible), fun valid => ?_⟩
        rw [valid.2 name (mem_of_find?_eq_some found)] at unknown
        cases unknown
      next none =>
        rw [find?_eq_none] at none
        simp only [true_iff]
        exact ⟨empty, by simpa using none⟩

def namesValue : List String → ClauseValue
  | [name] => .single name
  | names => .list names

theorem items_namesValue (names : List String) : (namesValue names).items = names := by
  unfold namesValue
  split
  · rfl
  · rfl

theorem valueText_namesValue (names : List String) : valueText (namesValue names) = (Step.access names).text := by
  match names with
  | [] => rfl
  | [_] => rfl
  | _ :: _ :: _ => rfl

theorem isValue_namesValue {names : List String} (valid : ∀ name ∈ names, IsName name) :
    IsValue (namesValue names) := by
  unfold namesValue
  split
  next name =>
    obtain ⟨bare, unstopped⟩ := valid name mem_cons_self
    refine ⟨bare, fun first => ?_⟩
    obtain ⟨tail, text⟩ := head?_eq_some_iff.mp first
    exact absurd (unstopped '(' (by simp [text])) (by decide)
  · exact fun name member => (valid name member).isItem

def signalsValue (signals : Extent (SortedSet String)) : Option ClauseValue :=
  signals.value?.map fun set => namesValue set.toList

theorem ofOption_signalsValue (signals : Extent (SortedSet String)) :
    Extent.ofOption ((signalsValue signals).map fun value => SortedSet.ofList value.items) = signals := by
  cases signals with
  | all => rfl
  | only set => simp [signalsValue, Extent.value?, items_namesValue, SortedSet.ofList_toList, Extent.ofOption]

theorem isValue_signalsValue {signals : Extent (SortedSet String)} (valid : AreSignals signals) :
    ∀ value ∈ signalsValue signals, IsValue value := by
  intro value found
  cases signals with
  | all => cases found
  | only set =>
    rw [← Option.some.inj found]
    exact isValue_namesValue fun name member => isName_of_signal ((valid set rfl).2 name member)

variable {signal : Signal}

def conditions (signal : Signal) : List (String × ClauseValue) :=
  stated "set" (signalsValue signal.signals) ++ stated "peer" (patternValue signal.peer)

theorem ofParts_of_read {body : List Char} (isFor : signal.access.IsFor accessWords)
    (signals : AreSignals signal.signals) (made : MadeOfText signal.peer)
    (read : Clauses.read body = .ok ⟨signal.access.words, signal.conditions⟩) :
    ofParts body = .ok signal := by
  have namesTaken : take ⟨signal.access.words, signal.conditions⟩ "set" =
      .ok (signalsValue signal.signals, ⟨signal.access.words, stated "peer" (patternValue signal.peer)⟩) := by
    refine take_front _ ?_
    intro entry member
    rw [(mem_stated.mp member).1]
    decide
  have taken : takePattern ⟨signal.access.words, stated "peer" (patternValue signal.peer)⟩ "peer" =
      .ok (signal.peer, ⟨signal.access.words, []⟩) := by
    rw [← append_nil (stated _ _)]
    exact takePattern_front made (by simp)
  simp only [ofParts, read, bind, Except.bind, Access.ofWords_words .signal isFor, namesTaken,
    ofOption_signalsValue, taken, finish, make, Access.check_eq_ok .signal isFor,
    checkSignals_eq_ok_iff.mpr signals]
  rfl

end Signal

/-! ## User namespaces -/

theorem Rule.recovered_userns {rule : Rule} {line : List Char}
    (success : readAs? .userns line = some (.ok rule)) : rule.Restored line := by
  have kind := kind_of_readAs? success
  simp only [readAs?, Userns.read?] at success
  obtain ⟨body, _, _, made, stated, comment⟩ := readBy_keywordStatement_eq_ok success
  obtain ⟨content, made, shape⟩ := Checked.map_eq_ok.mp made
  obtain ⟨access, accessOf, made⟩ := Checked.bind_eq_ok.mp made
  obtain ⟨_, checked, rfl⟩ := Checked.map_eq_ok.mp made
  have isFor := Access.isFor_of_ofWords accessOf
  have names : ∀ word ∈ Userns.accessWords, IsName word := by decide
  obtain ⟨part, text, plain⟩ := exists_plainBody (access.valid_steps names isFor)
  have bodyText : rule.body.text.toList = "userns".toList ++ spacedPart part := by
    rw [← shape, ← text, ← Access.text_toList]
    exact String.toList_append
  have wordsOf : (words (listing access.steps)).map String.ofList = access.words := by
    cases access with
    | all => rfl
    | only set =>
      have one : set = SortedSet.ofList ["create"] := by
        obtain ⟨nonempty, known⟩ := isFor set rfl
        refine SortedSet.ext_mem fun word => ?_
        rw [SortedSet.mem_ofList]
        refine ⟨known word, fun isCreate => ?_⟩
        obtain ⟨other, member⟩ := exists_mem_of_ne_nil _ nonempty
        rw [mem_singleton.mp isCreate, ← mem_singleton.mp (known other member)]
        exact member
      rw [one]
      decide
  have again : Userns.ofParts (spacedPart part) = .ok ⟨access⟩ := by
    simp only [Userns.ofParts, ← text, wordsOf, Access.ofWords_words .userns isFor, bind, Except.bind,
      Userns.make, Access.check_eq_ok .userns isFor]
    rfl
  refine recovered_rewritten_of_body (by rw [kind]; rfl) (by rw [kind]; decide) bodyText kind stated comment
    plain (readAs?.eq_14 _) ?_
  rw [again, ← shape]
  rfl

end ArmorPolicy
