import ArmorPolicy.Proofs.Line.Pieces
import ArmorPolicy.Proofs.Rule.Reading

/-!
# Permission strings are read back

A permission string is written in one fixed order.  Reading it gives the permissions and the mode
from which it was written, for every access that a file rule can hold.
-/

namespace ArmorPolicy

open Checked Option List Text Line

variable {deny : Bool} {c : Char} {mode : ExecMode} {access : FileAccess}
  {permissions : FilePermissions}

/-! ## Letters -/

theorem FilePermission.ofLetter?_letter (permission : FilePermission) :
    ofLetter? permission.letter = some permission := by
  cases permission <;> decide

theorem ExecMode.ofName?_name (mode : ExecMode) : ofName? mode.name = some mode := by
  cases mode <;> decide

theorem ExecMode.name_injective {other : ExecMode} (same : mode.name = other.name) : mode = other := by
  have found := ofName?_name mode
  rw [same, ofName?_name] at found
  exact (some.inj found).symm

theorem ExecMode.readAt?_name (transition : mode ≠ .x) (rest : List Char) :
    readAt? (mode.name.toList ++ rest) = some (mode, rest) := by
  cases mode
  case x => exact absurd rfl transition
  all_goals rfl

theorem ExecMode.exists_cons_name (transition : mode ≠ .x) :
    ∃ c tail, mode.name.toList = c :: tail ∧ FilePermission.ofLetter? c = none ∧ c ≠ 'x' := by
  cases mode
  case x => exact absurd rfl transition
  all_goals exact ⟨_, _, rfl, by decide, by decide⟩

namespace FilePermissions

def Exclusive (permissions : FilePermissions) : Prop :=
  ¬(permissions.append = true ∧ permissions.write = true)

instance (permissions : FilePermissions) : Decidable permissions.Exclusive :=
  inferInstanceAs (Decidable (¬_))

/-- The permissions that are written: writing includes appending. -/
def settled (permissions : FilePermissions) : FilePermissions :=
  { permissions with append := permissions.append && !permissions.write }

theorem settled_of_exclusive (exclusive : permissions.Exclusive) : permissions.settled = permissions := by
  have kept : (permissions.append && !permissions.write) = permissions.append := by
    cases appends : permissions.append with
    | false => rfl
    | true => simpa [Exclusive, appends] using exclusive
  rw [settled, kept]

theorem exists_letters (permissions : FilePermissions) :
    ∃ listed : List FilePermission, permissions.letters = listed.map FilePermission.letter ∧
      listed.foldl insert empty = permissions.settled := by
  refine ⟨permissions.toList.filter fun permission => !(permission == .append && permissions.write),
    rfl, ?_⟩
  obtain ⟨map, read, write, append, link, lock⟩ := permissions
  revert map read write append link lock
  decide +kernel

theorem letters_eq_nil_iff : permissions.letters = [] ↔ permissions = {} := by
  obtain ⟨map, read, write, append, link, lock⟩ := permissions
  revert map read write append link lock
  decide +kernel

theorem ofLetters_lettersOf (permissions : FilePermissions) :
    ofLetters (File.lettersOf permissions) = .ok permissions := by
  have found : (ofLetters (File.lettersOf permissions)).toOption = some permissions := by
    obtain ⟨map, read, write, append, link, lock⟩ := permissions
    revert map read write append link lock
    decide +kernel
  cases result : ofLetters (File.lettersOf permissions) with
  | error e =>
    rw [result] at found
    cases found
  | ok again =>
    rw [result] at found
    cases found
    rfl

end FilePermissions

namespace FileAccess

def text (access : FileAccess) : List Char :=
  access.permissions.letters ++ ((access.exec.map ExecMode.name).getD "").toList

theorem readFrom_letter (deny : Bool) (access : FileAccess) (permission : FilePermission) (rest : List Char) :
    readFrom deny access (permission.letter :: rest) =
      readFrom deny { access with permissions := access.permissions.insert permission } rest := by
  rw [readFrom, FilePermission.ofLetter?_letter]

theorem readFrom_letters (deny : Bool) (access : FileAccess) (listed : List FilePermission)
    (rest : List Char) :
    readFrom deny access (listed.map FilePermission.letter ++ rest) =
      readFrom deny
        { access with permissions := listed.foldl FilePermissions.insert access.permissions } rest := by
  induction listed generalizing access with
  | nil => rfl
  | cons permission listed ih =>
    rw [map_cons, cons_append, readFrom_letter, ih]
    rfl

def ModeFits (deny : Bool) (exec : Option ExecMode) : Prop :=
  ∀ mode, exec = some mode → (mode = .x ↔ deny = true)

theorem readFrom_mode (fits : mode = .x → deny) (access : FileAccess) (rest : List Char) :
    readFrom deny access (mode.name.toList ++ rest) =
      access.withExec mode >>= fun next => readFrom deny next rest := by
  by_cases bare : mode = .x
  · subst bare
    obtain rfl := fits rfl
    have noLetter : FilePermission.ofLetter? 'x' = none := by decide
    change readFrom true access ('x' :: rest) = _
    rw [readFrom, noLetter]
    rfl
  · have readable := ExecMode.readAt?_name bare rest
    obtain ⟨c, tail, name, noLetter, noBare⟩ := ExecMode.exists_cons_name bare
    rw [name, cons_append] at readable ⊢
    rw [readFrom, noLetter]
    simp only [if_neg noBare]
    split
    next success =>
      rw [readable] at success
      cases success
      rfl
    next failure =>
      rw [readable] at failure
      cases failure

theorem read_text_settled (fits : ModeFits deny access.exec) :
    read access.text deny = .ok ⟨access.permissions.settled, access.exec⟩ := by
  obtain ⟨listed, letters, whole⟩ := access.permissions.exists_letters
  have start : listed.foldl FilePermissions.insert ({} : FileAccess).permissions =
      access.permissions.settled := whole
  rw [read, text, letters, readFrom_letters, start]
  cases exec : access.exec with
  | none => rw [map_none, getD_none, String.toList_empty, readFrom]
  | some mode =>
    have last := readFrom_mode (fits mode exec).mp { permissions := access.permissions.settled } []
    rw [append_nil] at last
    rw [map_some, getD_some, last]
    change readFrom deny ⟨access.permissions.settled, some mode⟩ [] = _
    rw [readFrom]

theorem read_text (exclusive : access.permissions.Exclusive) (fits : ModeFits deny access.exec) :
    read access.text deny = .ok access := by
  rw [read_text_settled fits, FilePermissions.settled_of_exclusive exclusive]

/-! ## Tokens -/

end FileAccess

inductive AccessToken where
  | plain (permission : FilePermission)
  | mode (exec : ExecMode)
  deriving DecidableEq

namespace AccessToken

def spelling : AccessToken → List Char
  | .plain permission => [permission.letter]
  | .mode exec => exec.name.toList

def spelled (tokens : List AccessToken) : List Char := tokens.flatMap spelling

def Admitted (deny : Bool) (token : AccessToken) : Prop := token = .mode .x → deny = true

instance (deny : Bool) (token : AccessToken) : Decidable (token.Admitted deny) :=
  inferInstanceAs (Decidable (_ → _))

end AccessToken

namespace FileAccess

theorem exists_spelled {result : FileAccess} {s : List Char} (success : readFrom deny access s = .ok result) :
    ∃ tokens, s = AccessToken.spelled tokens ∧ ∀ token ∈ tokens, token.Admitted deny := by
  fun_induction readFrom deny access s with
  | case1 => exact ⟨[], rfl, nofun⟩
  | case2 access c rest permission found ih =>
    have letter : permission.letter = c := by simpa using find?_some found
    obtain ⟨tokens, rfl, admitted⟩ := ih success
    exact ⟨.plain permission :: tokens, letter ▸ rfl, forall_mem_cons.mpr ⟨nofun, admitted⟩⟩
  | case3 access rest denies _ ih =>
    obtain ⟨next, _, further⟩ := bind_eq_ok.mp success
    obtain ⟨tokens, rfl, admitted⟩ := ih next further
    exact ⟨.mode .x :: tokens, rfl, forall_mem_cons.mpr ⟨fun _ => denies, admitted⟩⟩
  | case4 => cases success
  | case5 access c rest _ _ mode tail found _ ih =>
    obtain ⟨next, _, further⟩ := bind_eq_ok.mp success
    obtain ⟨tokens, rfl, admitted⟩ := ih next further
    obtain ⟨candidate, listed, named⟩ := exists_of_findSome?_eq_some found
    obtain ⟨rest', read, same⟩ := map_eq_some_iff.mp named
    obtain ⟨rfl, rfl⟩ := Prod.mk.inj same
    refine ⟨.mode candidate :: tokens, after?_eq_some_iff.mp read, forall_mem_cons.mpr ⟨?_, admitted⟩⟩
    intro bare
    cases bare
    exact absurd listed (by decide)
  | case6 => cases success

/-! ## The alphabet -/

def alphabet : List Char := "mrwalkixuUpPcC".toList

theorem letter_mem_alphabet (permission : FilePermission) : permission.letter ∈ alphabet := by
  cases permission <;> decide

theorem name_subset_alphabet (mode : ExecMode) : mode.name.toList ⊆ alphabet := by
  intro c
  cases mode <;> revert c <;> decide

theorem mem_alphabet_of_mem_text (member : c ∈ access.text) : c ∈ alphabet := by
  rcases mem_append.mp member with letter | inMode
  · obtain ⟨permission, _, rfl⟩ := mem_map.mp letter
    exact letter_mem_alphabet permission
  · cases mode : access.exec with
    | none => rw [mode] at inMode; cases inMode
    | some mode' =>
      rw [mode] at inMode
      exact name_subset_alphabet mode' inMode

theorem subset_alphabet_of_read {letters : List Char} (success : read letters deny = .ok access) :
    letters ⊆ alphabet := by
  obtain ⟨tokens, rfl, _⟩ := exists_spelled success
  intro c member
  obtain ⟨token, _, inside⟩ := mem_flatMap.mp member
  cases token with
  | plain permission =>
    obtain rfl := mem_singleton.mp inside
    exact letter_mem_alphabet permission
  | mode mode => exact name_subset_alphabet mode inside

theorem isAsciiLetter_of_mem_text (member : c ∈ access.text) : isAsciiLetter c := by
  have all : ∀ c ∈ alphabet, isAsciiLetter c := by decide
  exact all c (mem_alphabet_of_mem_text member)

theorem isSolid_of_mem_text (member : c ∈ access.text) : isSolid c := by
  have all : ∀ c ∈ alphabet, isSolid c := by decide
  exact all c (mem_alphabet_of_mem_text member)

theorem notStarts_letters {letters word : List Char} {stop : Char} (known : letters ⊆ alphabet)
    (member : c ∈ word) (foreign : c ∉ stop :: alphabet) (noStop : stop ∉ word) (rest : List Char) :
    ¬word <+: letters ++ stop :: rest := by
  rintro ⟨behind, split⟩
  rcases append_eq_append_iff.mp split with ⟨middle, text, _⟩ | ⟨middle, text, shape⟩
  · exact foreign (mem_cons_of_mem _ (known (by rw [text]; simp [member])))
  · cases middle with
    | nil =>
      rw [append_nil] at text
      exact foreign (mem_cons_of_mem _ (known (by rw [← text]; exact member)))
    | cons d middle =>
      obtain ⟨rfl, _⟩ := List.cons.inj shape
      exact noStop (by rw [text]; simp)

theorem notStarts_text {word : List Char} {stop : Char} (member : c ∈ word)
    (foreign : c ∉ stop :: alphabet) (noStop : stop ∉ word) (rest : List Char) :
    ¬word <+: access.text ++ stop :: rest :=
  notStarts_letters (fun _ => mem_alphabet_of_mem_text) member foreign noStop rest

theorem text_ne_nil (some : access.permissions ≠ {} ∨ access.exec ≠ none) : access.text ≠ [] := by
  intro empty
  obtain ⟨noLetters, noMode⟩ := append_eq_nil_iff.mp empty
  rcases some with permissions | exec
  · exact permissions (FilePermissions.letters_eq_nil_iff.mp noLetters)
  · cases mode : access.exec with
    | none => exact exec mode
    | some mode' =>
      rw [mode] at noMode
      cases mode' <;> cases noMode

end FileAccess

/-! ## Rules with an access -/

namespace File

/-- What a file rule asks of its access and its target. -/
structure Sensible (deny : Bool) (access : FileAccess) (target : Extent Pattern) : Prop where
  exclusive : access.permissions.Exclusive
  nonempty : access.permissions ≠ {} ∨ access.exec ≠ none
  fits : FileAccess.ModeFits deny access.exec
  target : target ≠ .all → access.exec ≠ none ∨ access.permissions.link = true

theorem execOf_eq_ok_iff {exec found : Option ExecMode} :
    execOf deny (exec.map ExecMode.name) = .ok found ↔ found = exec ∧ FileAccess.ModeFits deny exec := by
  cases exec with
  | none => simp [execOf, FileAccess.ModeFits, eq_comm]
  | some mode =>
    by_cases bare : mode = .x
    · subst bare
      cases deny <;> simp [execOf, FileAccess.ModeFits, ExecMode.name, refuse, eq_comm]
    · have noBare : mode.name ≠ "x" := fun same => bare (ExecMode.name_injective same)
      cases deny <;>
        simp [execOf, FileAccess.ModeFits, noBare, ExecMode.ofName?_name, bare, refuse]
      exact eq_comm

theorem permissionsOf_eq_ok_iff {hasExec : Bool} {found : Extent FilePermissions} :
    permissionsOf hasExec (.only (lettersOf permissions)) = .ok found ↔
      permissions.Exclusive ∧ (permissions ≠ {} ∨ hasExec) ∧ found = .only permissions := by
  simp only [permissionsOf, FilePermissions.ofLetters_lettersOf, bind, Except.bind]
  by_cases both : permissions.append ∧ permissions.write
  · simp [both, FilePermissions.Exclusive, refuse]
  · have other : (permissions.append && permissions.write) = false := by simpa using both
    by_cases some : permissions ≠ {} ∨ hasExec
    · have nonempty : (permissions.isEmpty && !hasExec) = false := by
        simp only [FilePermissions.isEmpty, FilePermissions.empty, Bool.and_eq_false_iff,
          beq_eq_false_iff_ne, Bool.not_eq_false']
        exact some
      simp [FilePermissions.Exclusive, both, other, some, nonempty, pure, Except.pure]
      exact eq_comm
    · have nothing : (permissions.isEmpty && !hasExec) := by
        simpa [FilePermissions.isEmpty, FilePermissions.empty] using some
      simp [other, some, nothing, reject]

theorem ofAccess_eq_ok_iff {path : Pattern} {target : Extent Pattern} {owner : Bool} {file : File} :
    ofAccess deny path access target owner = .ok file ↔
      Sensible deny access target ∧
        file = { path := .only path, permissions := .only access.permissions,
                 exec := access.exec, target, owner } := by
  have mode : (access.exec.map ExecMode.name).isSome ↔ access.exec ≠ none := by
    cases access.exec <;> simp
  have targeted : (!target.isAll && access.exec.isNone && !links (.only access.permissions)) = false ↔
      (target ≠ .all → access.exec ≠ none ∨ access.permissions.link) := by
    cases target <;> cases access.exec <;> simp [Extent.isAll, links, Extent.value?]
  have onlyPath : (Extent.only path).isAll = false := rfl
  have onlyThese : (Extent.only access.permissions).isAll = false := rfl
  constructor
  · intro made
    obtain ⟨permissions, granted, made⟩ := bind_eq_ok.mp made
    obtain ⟨exclusive, some, rfl⟩ := permissionsOf_eq_ok_iff.mp granted
    obtain ⟨exec, fitting, made⟩ := bind_eq_ok.mp made
    obtain ⟨rfl, fits⟩ := execOf_eq_ok_iff.mp fitting
    rw [onlyPath, onlyThese] at made
    cases untargeted : !target.isAll && access.exec.isNone && !links (.only access.permissions) with
    | true =>
      rw [untargeted] at made
      cases made
    | false =>
      rw [untargeted] at made
      cases made
      exact ⟨⟨exclusive, some.imp_right mode.mp, fits, targeted.mp untargeted⟩, rfl⟩
  · rintro ⟨sensible, rfl⟩
    refine bind_eq_ok.mpr ⟨.only access.permissions, ?_, ?_⟩
    · exact permissionsOf_eq_ok_iff.mpr ⟨sensible.exclusive, sensible.nonempty.imp_right mode.mpr, rfl⟩
    · refine bind_eq_ok.mpr ⟨access.exec, execOf_eq_ok_iff.mpr ⟨rfl, sensible.fits⟩, ?_⟩
      rw [onlyPath, onlyThese, targeted.mpr sensible.target]
      rfl

end File

end ArmorPolicy
