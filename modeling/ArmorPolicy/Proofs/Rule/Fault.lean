import ArmorPolicy.Proofs.Rule.Alias
import ArmorPolicy.Proofs.Rule.Capability
import ArmorPolicy.Proofs.Rule.Clause
import ArmorPolicy.Proofs.Rule.File

/-!
# How reading a statement fails

A statement that cannot be read is at fault itself, and the place of the fault is left to the reader of
the text.  There are two exceptions, which are reported as mistakes of a caller: a signal rule that
lists no signals, and an alias with nothing between its quotation marks.
-/

namespace ArmorPolicy

open Option Text Line Access

variable {access : FileAccess} {line s : List Char}

/-! ## Faults -/

namespace Checked

variable {α β : Type} {result : Checked α}

/-- What fails, fails with a fault of the text, without a place. -/
def OnlyFaults (result : Checked α) : Prop :=
  ∀ error, result = .error error → ∃ fault, error = .fault fault

@[simp]
theorem onlyFaults_ok (a : α) : OnlyFaults (.ok a) := by
  rintro error ⟨⟩

@[simp]
theorem onlyFaults_pure (a : α) : OnlyFaults (pure a : Checked α) := onlyFaults_ok a

@[simp]
theorem onlyFaults_refuse (fault : PolicyFault) : OnlyFaults (refuse fault : Checked α) := by
  rintro error ⟨⟩
  exact ⟨fault, rfl⟩

@[simp]
theorem refuse_ne_ok (fault : PolicyFault) (a : α) : (refuse fault : Checked α) ≠ .ok a := nofun

@[simp]
theorem onlyFaults_bind {next : α → Checked β} :
    OnlyFaults (result >>= next) ↔ result.OnlyFaults ∧ ∀ a, result = .ok a → (next a).OnlyFaults := by
  cases result with
  | error error => exact ⟨fun first => ⟨fun _ same => first _ (congrArg _ (Except.error.inj same)), nofun⟩,
      fun ⟨first, _⟩ _ same => first _ (congrArg _ (Except.error.inj same))⟩
  | ok a => simp [bind, Except.bind]

theorem OnlyFaults.bind {next : α → Checked β} (first : result.OnlyFaults)
    (second : ∀ a, result = .ok a → (next a).OnlyFaults) : OnlyFaults (result >>= next) :=
  onlyFaults_bind.mpr ⟨first, second⟩

@[simp]
theorem onlyFaults_map {f : α → β} : OnlyFaults (result.map f) ↔ result.OnlyFaults := by
  cases result with
  | error error => simp [OnlyFaults, Except.map]
  | ok a => simp [Except.map]

@[simp]
theorem onlyFaults_functor_map {f : α → β} :
    OnlyFaults (f <$> result) ↔ result.OnlyFaults := onlyFaults_map

@[simp]
theorem onlyFaults_ite {condition : Prop} [Decidable condition] {first second : Checked α} :
    OnlyFaults (if condition then first else second) ↔
      (condition → first.OnlyFaults) ∧ (¬condition → second.OnlyFaults) := by
  split <;> simp [*]

theorem onlyFaults_mapM {f : β → Checked α} (one : ∀ b, (f b).OnlyFaults) (members : List β) :
    OnlyFaults (members.mapM f) := by
  induction members with
  | nil => exact onlyFaults_ok []
  | cons b members ih => simp [List.mapM_cons, one b, ih]

end Checked

open Checked

@[simp]
theorem RuleBase.onlyFaults_forbidModifiers (base : RuleBase) (kind : RuleKind) :
    OnlyFaults (base.forbidModifiers kind) := by
  simp [forbidModifiers]

@[simp]
theorem Pattern.onlyFaults_ofText (glob : String) (isPath : Bool) : OnlyFaults (ofText glob isPath) := by
  unfold ofText
  split <;> simp

/-! ## Statements without clauses -/

theorem Abi.onlyFaults_ofParts (base : RuleBase) (parts : Reference.Parts) (line : List Char) :
    OnlyFaults (ofParts base parts line) := by
  unfold ofParts
  cases parts.form <;> simp [make]

theorem Inclusion.onlyFaults_ofParts (base : RuleBase) (parts : Reference.Parts) :
    OnlyFaults (ofParts base parts) := by
  unfold ofParts
  cases parts.form <;> simp [make]

theorem BooleanSetting.onlyFaults_ofParts (base : RuleBase) (parts : Parts) :
    OnlyFaults (ofParts base parts) := by
  refine (base.onlyFaults_forbidModifiers .boolean).bind fun _ _ => ?_
  split <;> simp

theorem Assignment.onlyFaults_valuesFrom (bound : Nat) (rest : List Char) (values : SortedSet String) :
    OnlyFaults (valuesFrom bound rest values) := by
  induction bound generalizing rest values with
  | zero => simp [valuesFrom]
  | succ bound ih =>
    unfold valuesFrom
    split <;> simp [ih]

theorem Assignment.onlyFaults_ofParts (base : RuleBase) (parts : Parts) :
    OnlyFaults (ofParts base parts) := by
  simp [ofParts, separate, onlyFaults_valuesFrom, make]

theorem Rlimit.onlyFaults_ofParts (base : RuleBase) (parts : Parts) : OnlyFaults (ofParts base parts) := by
  refine (base.onlyFaults_forbidModifiers .rlimit).bind fun _ _ => ?_
  split
  · simp
  · simp only
    split <;> simp

theorem Network.onlyFaults_ofParts (body : List Char) : OnlyFaults (ofParts body) := by
  have made : ∀ domain type, OnlyFaults (make domain type) := by
    intro domain type
    unfold make
    split
    · simp
    · split <;> simp
  unfold ofParts
  split <;> simp [made]

theorem ChangeProfile.onlyFaults_patternOf (isPath : Bool) (written : Option (List Char)) :
    OnlyFaults (patternOf isPath written) := by
  cases written <;> simp [patternOf]

theorem ChangeProfile.onlyFaults_ofParts (parts : Parts) : OnlyFaults (ofParts parts) := by
  refine (onlyFaults_patternOf _ _).bind fun condition _ => ?_
  refine (onlyFaults_patternOf _ _).bind fun target _ => ?_
  simp only [make, onlyFaults_ite, onlyFaults_refuse, implies_true, true_and]
  intro
  split <;> simp

/-! ## Capabilities -/

namespace Capability

theorem words_ne_nil (ends : EndsSolid s) : words s ≠ [] := by
  obtain ⟨start, c, rfl, solid⟩ := ends
  obtain ⟨piece, member, inside⟩ :=
    exists_piece_of_mem (s := start ++ [c]) (by simp) (isBlank_eq_false_iff.mpr solid)
  refine List.ne_nil_of_mem (a := piece) (List.mem_filter.mpr ⟨member, ?_⟩)
  simpa using List.ne_nil_of_mem inside

theorem onlyFaults_ofParts {statement : Statement (Option (List Char))}
    (read : read? line = some statement) : OnlyFaults (ofParts statement.parts) := by
  obtain ⟨s, _, readable, _⟩ := withModifiers_eq_some read
  obtain ⟨t, _, readable⟩ := bind_eq_some_iff.mp readable
  rcases or_eq_some_iff.mp readable with named | ⟨_, unnamed⟩
  · obtain ⟨⟨names, comment⟩, found, same⟩ := map_eq_some_iff.mp named
    obtain ⟨parts, _⟩ := Prod.mk.inj same
    rw [← parts]
    have solid : ∀ name ∈ (words names).map String.ofList, SolidWord name := by
      intro name among
      obtain ⟨chars, inNames, rfl⟩ := List.mem_map.mp among
      exact solidWord_of_mem_words inNames
    have some : (words names).map String.ofList ≠ [] := by
      unfold names? at found
      split at found
      · obtain ⟨_, _, ends, _⟩ := namesFrom?_eq_some found
        have nonempty : names ≠ [] := by
          rintro rfl
          cases ends
        simpa using words_ne_nil ((endsName_iff false nonempty).mp ends)
      · cases found
    rw [ofParts, (ofNames_eq_ok_iff solid).mpr ⟨some, rfl⟩]
    exact onlyFaults_ok _
  · obtain ⟨comment, _, same⟩ := map_eq_some_iff.mp unnamed
    rw [← (Prod.mk.inj same).1]
    exact onlyFaults_ok _

end Capability

/-! ## Files -/

namespace FileAccess

def Grants (access : FileAccess) : Prop := access.permissions ≠ {} ∨ access.exec ≠ none

theorem grants_insert (access : FileAccess) (permission : FilePermission) :
    Grants { access with permissions := access.permissions.insert permission } := by
  refine .inl fun (none : access.permissions.insert permission = {}) => ?_
  have granted := FilePermissions.contains_insert access.permissions permission permission
  rw [none] at granted
  cases permission <;> simp [FilePermissions.contains] at granted

theorem grants_withExec {next : FileAccess} {mode : ExecMode}
    (success : access.withExec mode = .ok next) : next.Grants := by
  refine .inr ?_
  unfold withExec at success
  split at success
  · cases success
    simp
  next first present =>
    split at success
    · cases success
      simp [present]
    · cases success

theorem onlyFaults_withExec (access : FileAccess) (mode : ExecMode) : OnlyFaults (access.withExec mode) := by
  unfold withExec
  split <;> simp

theorem onlyFaults_readFrom (deny : Bool) (access : FileAccess) (s : List Char) :
    OnlyFaults (readFrom deny access s) := by
  fun_induction readFrom deny access s with
  | case1 => simp
  | case2 _ _ _ _ _ ih => exact ih
  | case3 access rest _ _ ih => exact (onlyFaults_withExec access .x).bind fun next _ => ih next
  | case4 => simp
  | case5 access c rest _ _ mode tail _ _ ih =>
    exact (onlyFaults_withExec access mode).bind fun next _ => ih next
  | case6 => simp

theorem grants_readFrom {deny : Bool} {result : FileAccess} (some : s ≠ [] ∨ access.Grants)
    (success : readFrom deny access s = .ok result) : result.Grants := by
  fun_induction readFrom deny access s with
  | case1 access =>
    cases success
    exact some.resolve_left (by simp)
  | case2 access _ _ permission _ ih => exact ih (.inr (grants_insert access permission)) success
  | case3 access rest _ _ ih =>
    obtain ⟨next, added, success⟩ := Checked.bind_eq_ok.mp success
    exact ih next (.inr (grants_withExec added)) success
  | case4 => cases success
  | case5 access c rest _ _ mode tail _ _ ih =>
    obtain ⟨next, added, success⟩ := Checked.bind_eq_ok.mp success
    exact ih next (.inr (grants_withExec added)) success
  | case6 => cases success

end FileAccess

namespace File

theorem onlyFaults_execOf (deny : Bool) (exec : Option ExecMode) :
    OnlyFaults (execOf deny (exec.map ExecMode.name)) := by
  cases exec with
  | none => exact onlyFaults_ok none
  | some mode => simp [execOf, ExecMode.ofName?_name]

/-- An access that grants something can only be at odds with the decision, with itself or with the
target. -/
theorem onlyFaults_ofAccess (deny : Bool) (path : Pattern) (target : Extent Pattern) (owner : Bool)
    (grants : access.Grants) : OnlyFaults (ofAccess deny path access target owner) := by
  have some : (access.permissions.isEmpty && !(access.exec.map ExecMode.name).isSome) = false := by
    rcases grants with permissions | exec
    · simp [FilePermissions.isEmpty, FilePermissions.empty, permissions]
    · cases mode : access.exec with
      | none => exact absurd mode exec
      | some mode => simp
  unfold ofAccess make
  refine .bind ?_ fun permissions granted => (onlyFaults_execOf deny access.exec).bind fun exec _ => ?_
  · simp only [permissionsOf, FilePermissions.ofLetters_lettersOf]
    refine (onlyFaults_ok _).bind fun permissions same => ?_
    cases same
    rw [some]
    simp
  · obtain ⟨_, _, rfl⟩ := permissionsOf_eq_ok_iff.mp granted
    simp [Extent.isAll]

theorem letters_ne_nil {statement : Statement Parts} (read : read? line = some statement) :
    ∀ entry ∈ statement.parts.entry, entry.letters ≠ [] := by
  have lettered : ∀ {s letters rest}, lettersAt? s = some (letters, rest) → letters ≠ [] := by
    intro s letters rest found
    unfold lettersAt? at found
    split at found
    · cases found
    next nonempty =>
      cases found
      simpa using nonempty
  obtain ⟨_, _, comment, parts⟩ := statement
  obtain ⟨s, _, readable, _⟩ := withModifiers_eq_some read
  obtain ⟨owner, t, _, ⟨_, _, _, rfl⟩ | ⟨entry, _, found, rfl⟩⟩ := readParts?_cases readable
  · rintro entry ⟨⟩
  · rintro _ ⟨⟩
    obtain ⟨⟨fileWord, u⟩, _, found⟩ := List.exists_of_findSome?_eq_some found
    obtain ⟨_, _, _, ⟨isEntry, rfl⟩ | ⟨isEntry, rfl⟩⟩ := eitherOrder?_cases found
    · obtain ⟨⟨_, _, _, _⟩, isPath, ⟨⟩⟩ := map_eq_some_iff.mp isEntry
      obtain ⟨rest, permissions⟩ := exists_read_of_path? isPath
      obtain ⟨⟨_, v⟩, isLetters, permissions⟩ := bind_eq_some_iff.mp permissions
      obtain ⟨_, _, ⟨⟩⟩ := map_eq_some_iff.mp permissions
      obtain ⟨_, _, isLetters⟩ := bind_eq_some_iff.mp isLetters
      exact lettered isLetters
    · obtain ⟨⟨_, v⟩, isLetters, further⟩ := bind_eq_some_iff.mp isEntry
      obtain ⟨_, _, ⟨⟩⟩ := map_eq_some_iff.mp further
      exact lettered isLetters

theorem onlyFaults_ofParts {statement : Statement Parts} (read : read? line = some statement)
    (base : RuleBase) : OnlyFaults (ofParts base statement.parts) := by
  have nonempty := letters_ne_nil read
  unfold ofParts
  split
  · simp
  next entry present =>
    refine (Pattern.onlyFaults_ofText _ _).bind fun path _ => ?_
    refine (FileAccess.onlyFaults_readFrom _ _ _).bind fun access decoded => ?_
    refine .bind ?_ fun target _ => ?_
    · cases entry.target <;> simp [targetOf]
    · have grants := FileAccess.grants_readFrom (.inl (nonempty entry present)) decoded
      simp [onlyFaults_ofAccess base.deny path target _ grants]

end File

/-! ## Clauses -/

namespace Clauses

variable {body : List Char} {error : PolicyError}

/-- The faults for which a body is refused. -/
inductive BodyFault (body : List Char) : PolicyError → Prop
  | unclosed : BodyFault body (.fault .unbalancedOpen)
  | unopened : BodyFault body (.fault (.unbalancedClose (String.ofList (trim body))))
  | noValue (key : String) : BodyFault body (.fault (.missingValue key))

theorem length_item_lt {c : Char} {t : List Char} (skipped : s.dropWhile isSeparator = c :: t) (notEnd : c ≠ ')') :
    (word (· == ')') (c :: t)).2.length < (c :: t).length :=
  length_word_lt (by simp [not_isSeparator_of_dropWhile skipped, notEnd])

theorem bodyFault_of_group (failed : group s = .error error) : BodyFault body error := by
  fun_induction group s with
  | case1 =>
    cases failed
    exact .unclosed
  | case2 => cases failed
  | case3 _ _ _ _ _ _ _ _ _ _ ih => exact ih (map_eq_error.mp failed)
  | case4 s c t notEnd skipped item rest found stays =>
    have shorter := length_item_lt skipped notEnd
    rw [found] at shorter
    exact absurd shorter stays

theorem bodyFault_of_value {key : String} (failed : value key s = .error error) : BodyFault body error := by
  unfold Clauses.value at failed
  split at failed
  · exact bodyFault_of_group (map_eq_error.mp failed)
  · dsimp only at failed
    split at failed
    · cases failed
      exact .noValue key
    · cases failed

theorem bodyFault_of_step (failed : step body s = .error error) : BodyFault body error := by
  unfold Clauses.step at failed
  split at failed
  · exact bodyFault_of_group (map_eq_error.mp failed)
  · cases failed
    exact .unopened
  · dsimp only at failed
    split at failed
    · exact bodyFault_of_value (map_eq_error.mp failed)
    · cases failed

theorem bodyFault_of_readFrom (failed : readFrom body s = .error error) : BodyFault body error := by
  fun_induction readFrom body s with
  | case1 => cases failed
  | case2 s c t _ fault stepped =>
    cases failed
    exact bodyFault_of_step stepped
  | case3 _ _ _ _ _ _ _ _ ih => exact ih (map_eq_error.mp failed)

theorem onlyFaults_readFrom (body s : List Char) : OnlyFaults (readFrom body s) := by
  intro error failed
  cases bodyFault_of_readFrom failed <;> exact ⟨_, rfl⟩

@[simp]
theorem onlyFaults_take (clauses : Clauses) (key : String) : OnlyFaults (clauses.take key) := by
  unfold take
  simp only
  split <;> simp

@[simp]
theorem onlyFaults_finish (clauses : Clauses) (place : String) : OnlyFaults (clauses.finish place) := by
  unfold finish
  split <;> simp

@[simp]
theorem onlyFaults_takePattern (clauses : Clauses) (key : String) : OnlyFaults (clauses.takePattern key) := by
  refine (onlyFaults_take clauses key).bind fun taken _ => .bind ?_ fun _ _ => onlyFaults_pure _
  unfold patternOf
  split <;> simp

end Clauses

theorem Access.onlyFaults_ofWords (kind : RuleKind) (allowed words : List String) :
    OnlyFaults (ofWords kind allowed words) := by
  unfold ofWords checkWords
  split
  · simp
  · split <;> simp

theorem Ptrace.onlyFaults_ofParts (body : List Char) : OnlyFaults (ofParts body) := by
  refine (Clauses.onlyFaults_readFrom _ _).bind fun clauses _ => ?_
  refine (onlyFaults_ofWords _ _ _).bind fun access stated => ?_
  refine (Clauses.onlyFaults_takePattern _ _).bind fun peer _ => ?_
  simp [make, check_eq_ok _ (isFor_of_ofWords stated)]

theorem Userns.onlyFaults_ofParts (body : List Char) : OnlyFaults (ofParts body) := by
  refine (onlyFaults_ofWords _ _ _).bind fun access stated => ?_
  simp [make, check_eq_ok _ (isFor_of_ofWords stated)]

namespace Dbus

theorem onlyFaults_peerOf (value : Option ClauseValue) : OnlyFaults (peerOf value) := by
  cases value with
  | none => exact onlyFaults_ok _
  | some value =>
    refine .bind (onlyFaults_mapM (fun item => ?_) value.items) fun conditions _ => by simp
    unfold peerCondition
    split <;> simp

theorem onlyFaults_busOf (value : Option ClauseValue) : OnlyFaults (busOf value) := by
  unfold busOf
  split <;> simp

theorem onlyFaults_ofParts (body : List Char) : OnlyFaults (ofParts body) := by
  refine (Clauses.onlyFaults_readFrom _ _).bind fun clauses _ => ?_
  refine (onlyFaults_ofWords _ _ _).bind fun access stated => ?_
  simp [onlyFaults_busOf, onlyFaults_peerOf, checked, check_eq_ok _ (isFor_of_ofWords stated)]

end Dbus

/-! ## Signals -/

namespace Signal

/-- The body is in order, but for a list of signals with nothing in it. -/
def ListsNothing (body : List Char) : Prop :=
  ∃ clauses access rest peer last, Clauses.read body = .ok clauses ∧
    Access.ofWords .signal accessWords clauses.access = .ok access ∧
    clauses.take "set" = .ok (some (.list []), rest) ∧ rest.takePattern "peer" = .ok (peer, last) ∧
    last.finish "signal" = .ok ()

theorem ofParts_of_listsNothing {body : List Char} (nothing : ListsNothing body) :
    ofParts body = reject .noSignals := by
  obtain ⟨clauses, access, rest, peer, last, read, stated, set, peered, finished⟩ := nothing
  have checked := check_eq_ok .signal (isFor_of_ofWords stated)
  simp only [ofParts, read, stated, set, peered, finished, make, checked, bind, Except.bind]
  rfl

theorem checkSignals_cases (value : Option ClauseValue) :
    OnlyFaults (checkSignals (Extent.ofOption (value.map fun value => SortedSet.ofList value.items))) ∨
      value = some (.list []) := by
  cases value with
  | none => exact .inl (onlyFaults_ok ())
  | some value =>
    by_cases none : value.items = []
    · refine .inr ?_
      cases value with
      | single word => cases none
      | list items => rw [show items = [] from none]
    · refine .inl ?_
      obtain ⟨name, member⟩ := List.exists_mem_of_ne_nil _ none
      have some : (SortedSet.ofList value.items).isEmpty = false := by
        have inside := SortedSet.mem_ofList.mpr member
        simpa [SortedSet.isEmpty] using List.ne_nil_of_mem inside
      simp only [map_some, Extent.ofOption, checkSignals, some]
      split
      · cases ‹_›
      · split <;> simp

theorem onlyFaults_ofParts {body : List Char} (names : ¬ListsNothing body) : OnlyFaults (ofParts body) := by
  refine (Clauses.onlyFaults_readFrom _ _).bind fun clauses read => ?_
  refine (onlyFaults_ofWords _ _ _).bind fun access stated => ?_
  refine (Clauses.onlyFaults_take _ _).bind fun ⟨set, rest⟩ taken => ?_
  refine (Clauses.onlyFaults_takePattern _ _).bind fun ⟨peer, last⟩ peered => ?_
  refine (Clauses.onlyFaults_finish _ _).bind fun _ finished => ?_
  rw [make, check_eq_ok _ (isFor_of_ofWords stated)]
  rcases checkSignals_cases set with checked | rfl
  · simpa using checked
  · exact absurd ⟨clauses, access, rest, peer, last, read, stated, taken, peered, finished⟩ names

end Signal

/-! ## Aliases -/

namespace Aliasing

variable {statement : Statement Parts}

def emptyQuotes : List Char := ['"', '"']

theorem stripQuotes_eq_nil (nonempty : s ≠ []) : stripQuotes s = [] ↔ s = emptyQuotes := by
  constructor
  · intro stripped
    unfold stripQuotes at stripped
    split at stripped
    next rest =>
      split at stripped
      next last =>
        cases rest with
        | nil => cases last
        | cons c rest =>
          cases rest with
          | nil =>
            cases last
            rfl
          | cons d rest => cases stripped
      · cases stripped
    · exact absurd stripped nonempty
  · rintro rfl
    rfl

theorem parts_ne_nil (read : read? line = some statement) :
    statement.parts.path ≠ [] ∧ statement.parts.target ≠ [] := by
  rw [read?_eq] at read
  obtain ⟨readable, _⟩ := withoutModifiers_eq_some read
  obtain ⟨s, _, found⟩ := bind_eq_some_iff.mp readable
  obtain ⟨⟨_, path, target, comment⟩, cut, same⟩ := map_eq_some_iff.mp found
  rw [← (Prod.mk.inj same).1]
  obtain ⟨t, _, _, cut, _⟩ := longest?_eq_some (longestPart?_eq_some_iff.mp cut).2
  obtain ⟨_, _, _, _, rfl, _, cut⟩ := shortestPart?_eq_some_iff.mp cut
  obtain ⟨_, _, _, arrow, _⟩ := shortest?_eq_some cut
  obtain ⟨_, _, _, _, _, _, found⟩ := arrow?_eq_some_iff.mp arrow
  obtain ⟨⟨_, _, _⟩, cut, ⟨⟩⟩ := map_eq_some_iff.mp found
  obtain ⟨_, _, _, cut, _⟩ := longest?_eq_some cut
  obtain ⟨_, _, _, _, rfl, _⟩ := shortestPart?_eq_some_iff.mp cut
  simp

/-- The statement names no path, or no target for a path. -/
inductive NamesNothing (parts : Parts) : Misuse → Prop
  | path (empty : parts.path = emptyQuotes) : NamesNothing parts .emptyAliasPath
  | target (named : (stripQuotes parts.path).head? = some '/') (empty : parts.target = emptyQuotes) :
      NamesNothing parts .emptyAliasTarget

theorem forbidModifiers_of_read? (read : read? line = some statement) :
    (statement.base line).forbidModifiers .aliasing = .ok () := by
  obtain ⟨_, audit, decision⟩ := withoutModifiers_eq_some read
  exact RuleBase.forbidModifiers_eq_ok_iff.mpr ⟨audit, (statement.decision_base line).trans decision⟩

theorem ofParts_of_namesNothing {mistake : Misuse} (read : read? line = some statement)
    (nothing : NamesNothing statement.parts mistake) :
    ofParts (statement.base line) statement.parts = reject mistake := by
  rw [ofParts, make, forbidModifiers_of_read? read]
  cases nothing with
  | path empty =>
    rw [empty]
    rfl
  | target named empty =>
    have some : (String.ofList (stripQuotes statement.parts.path)).isEmpty = false := by
      cases path : stripQuotes statement.parts.path with
      | nil => rw [path] at named; cases named
      | cons c rest => simp
    simp only [some, String.toList_ofList, named, empty, bind, Except.bind]
    rfl

theorem onlyFaults_ofParts (read : read? line = some statement)
    (names : ∀ mistake, ¬NamesNothing statement.parts mistake) :
    OnlyFaults (ofParts (statement.base line) statement.parts) := by
  obtain ⟨pathSome, targetSome⟩ := parts_ne_nil read
  have isEmpty : ∀ s : List Char, (String.ofList s).isEmpty ↔ s = [] := by simp
  have path : ¬(String.ofList (stripQuotes statement.parts.path)).isEmpty := by
    rw [isEmpty, stripQuotes_eq_nil pathSome]
    exact fun empty => names _ (.path empty)
  rw [ofParts, make, forbidModifiers_of_read? read]
  refine (onlyFaults_ok _).bind fun _ _ => ?_
  rw [if_neg path]
  refine onlyFaults_ite.mpr ⟨by simp, fun named => ?_⟩
  have target : ¬(String.ofList (stripQuotes statement.parts.target)).isEmpty := by
    rw [isEmpty, stripQuotes_eq_nil targetSome]
    exact fun empty => names _ (.target (by simpa using named) empty)
  rw [if_neg target]
  simp

end Aliasing

/-! ## Statements -/

namespace Rule

def kindOf? (line : List Char) : Option RuleKind := readingOrder.find? fun kind => fits kind line

theorem parse?_eq (line : List Char) :
    parse? (String.ofList line) = (kindOf? line).bind fun kind => readAs? kind line := by
  have first : ∀ kinds : List RuleKind, kinds.findSome? (fun kind => readAs? kind line) =
      (kinds.find? fun kind => fits kind line).bind fun kind => readAs? kind line := by
    intro kinds
    induction kinds with
    | nil => rfl
    | cons kind kinds ih =>
      rw [List.findSome?_cons, List.find?_cons, fits]
      cases found : readAs? kind line with
      | none => simpa using ih
      | some result => simp [found]
  rw [parse?, String.toList_ofList]
  exact first readingOrder

/-- The statement leaves empty what it has to name, and the caller is blamed for it. -/
inductive Vacant (line : List Char) : Misuse → Prop
  | signals {statement : Statement (List Char)} (kind : kindOf? line = some .signal)
      (read : Signal.read? line = some statement) (nothing : Signal.ListsNothing statement.parts) :
      Vacant line .noSignals
  | aliasing {statement : Statement Aliasing.Parts} {mistake : Misuse}
      (kind : kindOf? line = some .aliasing) (read : Aliasing.read? line = some statement)
      (nothing : Aliasing.NamesNothing statement.parts mistake) : Vacant line mistake

theorem parse?_of_vacant {mistake : Misuse} (vacant : Vacant line mistake) :
    parse? (String.ofList line) = some (reject mistake) := by
  rw [parse?_eq]
  cases vacant with
  | signals kind read nothing =>
    rw [kind, bind_some, readAs?, readBy, read, map_some]
    simp only [Signal.ofParts_of_listsNothing nothing]
    rfl
  | aliasing kind read nothing =>
    rw [kind, bind_some, readAs?, readBy, read, map_some]
    simp only [Aliasing.ofParts_of_namesNothing read nothing]
    rfl

theorem onlyFaults_readBy {α : Type} {read : List Char → Option (Statement α)}
    {make : RuleBase → α → Checked RuleBody} {result : Checked Rule}
    (one : ∀ statement, read line = some statement → OnlyFaults (make (statement.base line) statement.parts))
    (found : readBy read make line = some result) : result.OnlyFaults := by
  obtain ⟨statement, readable, rfl⟩ := map_eq_some_iff.mp found
  exact onlyFaults_map.mpr (one statement readable)

theorem onlyFaults_of_parse? {result : Checked Rule}
    (read : parse? (String.ofList line) = some result) (filled : ∀ mistake, ¬Vacant line mistake) :
    result.OnlyFaults := by
  rw [parse?_eq] at read
  obtain ⟨kind, first, found⟩ := bind_eq_some_iff.mp read
  cases kind <;> simp only [readAs?] at found
  all_goals refine onlyFaults_readBy (fun statement readable => ?_) found
  case signal =>
    exact onlyFaults_map.mpr (Signal.onlyFaults_ofParts fun nothing => filled _ (.signals first readable nothing))
  case aliasing =>
    exact onlyFaults_map.mpr (Aliasing.onlyFaults_ofParts readable fun mistake nothing =>
      filled _ (.aliasing first readable nothing))
  case capability => exact onlyFaults_map.mpr (Capability.onlyFaults_ofParts readable)
  case file => exact onlyFaults_map.mpr (File.onlyFaults_ofParts readable _)
  all_goals simp [Abi.onlyFaults_ofParts, Inclusion.onlyFaults_ofParts, BooleanSetting.onlyFaults_ofParts,
    Assignment.onlyFaults_ofParts, ChangeProfile.onlyFaults_ofParts, Rlimit.onlyFaults_ofParts,
    Dbus.onlyFaults_ofParts, Network.onlyFaults_ofParts, Ptrace.onlyFaults_ofParts, Userns.onlyFaults_ofParts]

end Rule

end ArmorPolicy
