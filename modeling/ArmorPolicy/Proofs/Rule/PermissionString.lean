import ArmorPolicy.Proofs.Rule.WellFormed

/-!
# Permission strings as sequences of tokens

No token starts another one, so that a permission string is cut into tokens in one way.  It is decoded
where its modes agree, into the permissions and the mode among its tokens, whatever their order.  What a
rule writes is decoded into what the rule grants, also after permissions have been added.
-/

namespace ArmorPolicy

open List

/-! ## Cutting -/

namespace AccessToken

def all : List AccessToken :=
  FilePermission.all.map .plain ++ (ExecMode.x :: ExecMode.transitions).map .mode

theorem mem_all (token : AccessToken) : token ∈ all := by
  cases token with
  | plain permission => cases permission <;> decide
  | mode exec => cases exec <;> decide

theorem eq_of_starts {token other : AccessToken} (starts : token.spelling <+: other.spelling) :
    token = other := by
  have free : ∀ token ∈ all, ∀ other ∈ all, token.spelling <+: other.spelling → token = other := by
    decide +kernel
  exact free token token.mem_all other other.mem_all starts

theorem spelling_ne_nil (token : AccessToken) : token.spelling ≠ [] := by
  have solid : ∀ token ∈ all, token.spelling ≠ [] := by decide
  exact solid token token.mem_all

theorem spelled_injective {tokens others : List AccessToken} (same : spelled tokens = spelled others) :
    tokens = others := by
  induction tokens generalizing others with
  | nil =>
    cases others with
    | nil => rfl
    | cons other others => exact absurd (append_eq_nil_iff.mp same.symm).1 other.spelling_ne_nil
  | cons token tokens ih =>
    cases others with
    | nil => exact absurd (append_eq_nil_iff.mp same).1 token.spelling_ne_nil
    | cons other others =>
      have same : token.spelling ++ spelled tokens = other.spelling ++ spelled others := same
      have first : token = other := by
        have here : token.spelling <+: other.spelling ++ spelled others := same ▸ prefix_append _ _
        rcases prefix_or_prefix_of_prefix here (prefix_append _ _) with starts | starts
        · exact eq_of_starts starts
        · exact (eq_of_starts starts).symm
      subst first
      rw [ih (append_cancel_left same)]

def OneMode (tokens : List AccessToken) : Prop :=
  ∀ exec other, .mode exec ∈ tokens → .mode other ∈ tokens → exec = other

end AccessToken

open AccessToken (spelled OneMode)

/-! ## Decoding -/

namespace FileAccess

variable {access result : FileAccess} {tokens : List AccessToken} {deny : Bool}

/-- The permissions and the mode are those among the tokens. -/
structure Holds (access : FileAccess) (tokens : List AccessToken) : Prop where
  permissions : ∀ permission, access.permissions.contains permission = true ↔ .plain permission ∈ tokens
  exec : ∀ exec, access.exec = some exec ↔ .mode exec ∈ tokens

theorem Holds.oneMode (holds : access.Holds tokens) : OneMode tokens := by
  intro exec other first second
  have same := (holds.exec exec).mpr first
  rw [(holds.exec other).mpr second] at same
  exact (Option.some.inj same).symm

theorem exists_holds (oneMode : OneMode tokens) : ∃ access : FileAccess, access.Holds tokens := by
  have granted : ∃ permissions : FilePermissions,
      ∀ permission, permissions.contains permission ↔ .plain permission ∈ tokens := by
    refine ⟨⟨decide (.plain .map ∈ tokens), decide (.plain .read ∈ tokens), decide (.plain .write ∈ tokens),
      decide (.plain .append ∈ tokens), decide (.plain .link ∈ tokens), decide (.plain .lock ∈ tokens)⟩, ?_⟩
    intro permission
    cases permission <;> exact decide_eq_true_iff
  obtain ⟨permissions, granted⟩ := granted
  by_cases stated : ∃ exec, .mode exec ∈ tokens
  · obtain ⟨exec, member⟩ := stated
    refine ⟨⟨permissions, some exec⟩, granted, fun other => ⟨?_, fun found => ?_⟩⟩
    · rintro ⟨⟩
      exact member
    · exact congrArg some (oneMode exec other member found)
  · exact ⟨⟨permissions, none⟩, granted, fun exec => ⟨nofun, fun found => absurd ⟨exec, found⟩ stated⟩⟩

def take (access : FileAccess) : AccessToken → Checked FileAccess
  | .plain permission => .ok { access with permissions := access.permissions.insert permission }
  | .mode exec => access.withExec exec

theorem readFrom_spelled (admitted : ∀ token ∈ tokens, token.Admitted deny) (access : FileAccess) :
    readFrom deny access (spelled tokens) = tokens.foldlM take access := by
  induction tokens generalizing access with
  | nil =>
    change readFrom deny access [] = _
    rw [readFrom]
    rfl
  | cons token tokens ih =>
    obtain ⟨first, others⟩ := forall_mem_cons.mp admitted
    rw [foldlM_cons]
    cases token with
    | plain permission =>
      change readFrom deny access (permission.letter :: spelled tokens) = _
      rw [readFrom_letter, ih others]
      rfl
    | mode exec =>
      change readFrom deny access (exec.name.toList ++ spelled tokens) = _
      rw [readFrom_mode (fun bare => first (congrArg _ bare))]
      exact bind_congr fun next => ih others next

theorem foldlM_take_eq_ok_iff :
    tokens.foldlM take access = .ok result ↔
      (∀ permission, result.permissions.contains permission ↔
        access.permissions.contains permission ∨ .plain permission ∈ tokens) ∧
      ∀ exec, result.exec = some exec ↔ access.exec = some exec ∨ .mode exec ∈ tokens := by
  induction tokens generalizing access with
  | nil =>
    rw [foldlM_nil]
    constructor
    · rintro ⟨⟩
      simp
    · rintro ⟨permissions, exec⟩
      obtain ⟨granted, mode⟩ := result
      simp only [not_mem_nil, or_false] at permissions exec
      have same : access.permissions = granted :=
        FilePermissions.ext_contains fun permission => Bool.eq_iff_iff.mpr (permissions permission).symm
      have one : access.exec = mode := Option.ext fun value => (exec value).symm
      rw [← same, ← one]
      rfl
  | cons token tokens ih =>
    rw [foldlM_cons]
    cases token with
    | plain permission =>
      change tokens.foldlM take { access with permissions := access.permissions.insert permission } = _ ↔ _
      rw [ih]
      simp [or_assoc, or_comm, or_left_comm]
    | mode exec =>
      change access.withExec exec >>= _ = _ ↔ _
      unfold withExec
      cases there : access.exec with
      | none =>
        change tokens.foldlM take { access with exec := some exec } = _ ↔ _
        rw [ih]
        simp [@eq_comm _ exec]
      | some first =>
        by_cases same : first = exec
        · subst same
          simp only [if_true]
          change tokens.foldlM take access = _ ↔ _
          rw [ih, there]
          simp [@eq_comm _ first]
        · simp only [if_neg same]
          refine ⟨nofun, ?_⟩
          rintro ⟨_, modes⟩
          have both := (modes first).mpr (.inl rfl)
          rw [(modes exec).mpr (.inr (mem_cons_self ..))] at both
          exact absurd (Option.some.inj both).symm same

theorem read_spelled_eq_ok_iff :
    read (spelled tokens) deny = .ok access ↔
      (∀ token ∈ tokens, token.Admitted deny) ∧ access.Holds tokens := by
  have holds : tokens.foldlM take {} = .ok access ↔ access.Holds tokens := by
    have nothing : ∀ permission, ({} : FilePermissions).contains permission = false := by
      intro permission
      cases permission <;> rfl
    rw [foldlM_take_eq_ok_iff]
    simp only [nothing, Bool.false_eq_true, false_or, reduceCtorEq]
    exact ⟨fun ⟨permissions, exec⟩ => ⟨permissions, exec⟩, fun ⟨permissions, exec⟩ => ⟨permissions, exec⟩⟩
  constructor
  · intro success
    obtain ⟨others, same, admitted⟩ := exists_spelled success
    obtain rfl := AccessToken.spelled_injective same
    rw [read, readFrom_spelled admitted] at success
    exact ⟨admitted, holds.mp success⟩
  · rintro ⟨admitted, held⟩
    rw [read, readFrom_spelled admitted]
    exact holds.mpr held

theorem exists_read_iff {letters : List Char} :
    (∃ access, read letters deny = .ok access) ↔
      ∃ tokens, letters = spelled tokens ∧ (∀ token ∈ tokens, token.Admitted deny) ∧ OneMode tokens := by
  constructor
  · rintro ⟨access, success⟩
    obtain ⟨tokens, rfl, admitted⟩ := exists_spelled success
    exact ⟨tokens, rfl, admitted, (read_spelled_eq_ok_iff.mp success).2.oneMode⟩
  · rintro ⟨tokens, rfl, admitted, oneMode⟩
    obtain ⟨access, holds⟩ := exists_holds oneMode
    exact ⟨access, read_spelled_eq_ok_iff.mpr ⟨admitted, holds⟩⟩

theorem read_spelled_of_perm {others : List AccessToken} (order : others.Perm tokens)
    (success : read (spelled tokens) deny = .ok access) : read (spelled others) deny = .ok access := by
  obtain ⟨admitted, holds⟩ := read_spelled_eq_ok_iff.mp success
  refine read_spelled_eq_ok_iff.mpr ⟨fun token member => admitted token (order.mem_iff.mp member), ?_, ?_⟩
  · exact fun permission => (holds.permissions permission).trans order.mem_iff.symm
  · exact fun exec => (holds.exec exec).trans order.mem_iff.symm

end FileAccess

/-! ## What rules write -/

theorem File.read_accessText {deny : Bool} {file : File} (fits : FileAccess.ModeFits deny file.exec) :
    FileAccess.read file.accessText.toList deny =
      .ok ⟨(file.permissions.value?.getD {}).settled, file.exec⟩ := by
  have text : file.accessText.toList = FileAccess.text ⟨file.permissions.value?.getD {}, file.exec⟩ := by
    have none : ({} : FilePermissions).letters = [] := by decide
    rw [accessText, FileAccess.text]
    cases file.permissions <;> simp [Extent.value?, none]
  rw [text]
  exact FileAccess.read_text_settled fits

theorem Rule.modeFits_widened {rule : Rule} (built : rule.Built) (letters : List (SortedSet Char)) {file : File}
    (body : (rule.changed (letters.map .permissions)).body = .file file) :
    FileAccess.ModeFits (rule.changed (letters.map .permissions)).base.deny file.exec := by
  obtain ⟨before, original, widened⟩ := exists_file_of_changed _ body
  have undecided : (letters.map .permissions).filterMap RuleChange.deny? = [] := by
    simp [filterMap_eq_nil_iff, RuleChange.deny?]
  rw [deny_changed, undecided, widened.exec]
  exact (built.file_made original).targeted.2

namespace FileAccess

/-- Permission strings are cut into tokens in one way, and decoded exactly if their modes agree and each of
their tokens is admitted; the result is what is among the tokens, in any order.  What a file rule writes is
decoded into its mode and its permissions, where writing stands for appending; the rule for all files writes
none. -/
theorem read_tokens_and_back :
    (∀ letters deny, (∃ access, read letters deny = .ok access) ↔
      ∃ tokens, letters = spelled tokens ∧ (∀ token ∈ tokens, token.Admitted deny) ∧ OneMode tokens) ∧
    (∀ tokens others, spelled tokens = spelled others → tokens = others) ∧
    (∀ tokens deny access, read (spelled tokens) deny = .ok access →
      access.Holds tokens ∧
        ∀ others : List AccessToken, others.Perm tokens → read (spelled others) deny = .ok access) ∧
    ∀ (rule : Rule) (letters : List (SortedSet Char)) (file : File), rule.Built →
      (rule.changed (letters.map .permissions)).body = .file file →
      read file.accessText.toList (rule.changed (letters.map .permissions)).base.deny =
        .ok ⟨(file.permissions.value?.getD {}).settled, file.exec⟩ := by
  refine ⟨fun _ _ => exists_read_iff, fun _ _ => AccessToken.spelled_injective, ?_, ?_⟩
  · intro tokens deny access success
    exact ⟨(read_spelled_eq_ok_iff.mp success).2, fun others order => read_spelled_of_perm order success⟩
  · intro rule letters file built body
    exact File.read_accessText (Rule.modeFits_widened built letters body)

/-- A mode that is stated twice, between the letters and before them; a rule to which appending is added. -/
theorem read_tokens_and_back_repeated :
    let tokens : List AccessToken := [.plain .read, .mode .Pix, .plain .write, .mode .Pix]
    let others : List AccessToken := [.mode .Pix, .mode .Pix, .plain .write, .plain .read]
    let file : File :=
      { path := .only ⟨"/bar", none⟩, permissions := .only { read := true, write := true, append := true }
        exec := some .Pix, target := .all, owner := false }
    (∃ access, read "rPixwPix".toList false = .ok access ∧ access.Holds tokens ∧
      read "PixPixwr".toList false = .ok access) ∧
    tokens ≠ others ∧
    ∃ rule, Rule.parseAs .file "/bar rwPix," = .ok rule ∧
      (rule.changed [.permissions (.singleton 'a')]).body = .file file ∧
      read "rwPix".toList false = .ok ⟨{ read := true, write := true }, some .Pix⟩ := by
  intro tokens others file
  obtain ⟨decoded, _, reordered, written⟩ := read_tokens_and_back
  refine ⟨?_, by decide, ?_⟩
  · have oneMode : OneMode tokens := by
      intro exec other first second
      have only : ∀ exec, .mode exec ∈ tokens → exec = .Pix := by simp [tokens]
      rw [only exec first, only other second]
    obtain ⟨access, success⟩ := (decoded (spelled tokens) false).mpr ⟨tokens, rfl, by decide, oneMode⟩
    obtain ⟨holds, further⟩ := reordered tokens false access success
    exact ⟨access, success, holds, further others (by decide)⟩
  · let before : File := { file with permissions := .only { read := true, write := true } }
    let rule : Rule := ⟨{ written := some "/bar rwPix," }, .file before⟩
    have success : Rule.parseAs .file "/bar rwPix," = .ok rule := by decide +kernel
    exact ⟨rule, success, by decide +kernel, written rule [.singleton 'a'] file (.read success) rfl⟩

end FileAccess

end ArmorPolicy
