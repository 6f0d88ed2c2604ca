import ArmorPolicy.Rule.Change
import ArmorPolicy.Proofs.Rule.Sameness

/-!
# Rules that are changed

A call that changes a rule sets one of its modifiers, or the owner, the path or the permissions of a file
rule.  It either leaves the rule as it is or drops the text from which the rule was read; a call that fails
does the former.  So a rule that still has its text is the rule that was read, however often it was
called, and any other rule is written in its canonical form.
-/

namespace ArmorPolicy

open List Text

/-! ## Sets of permissions -/

namespace FilePermissions

variable {permissions other : FilePermissions}

theorem ext_contains (same : ∀ permission, permissions.contains permission = other.contains permission) :
    permissions = other := by
  obtain ⟨map, read, write, append, link, lock⟩ := permissions
  obtain ⟨map', read', write', append', link', lock'⟩ := other
  simp only [mk.injEq]
  exact ⟨same .map, same .read, same .write, same .append, same .link, same .lock⟩

theorem mem_toList {permission : FilePermission} :
    permission ∈ permissions.toList ↔ permissions.contains permission := by
  simp [toList, FilePermission.mem_all]

theorem contains_foldl_insert (listed : List FilePermission) (permission : FilePermission) :
    (listed.foldl insert permissions).contains permission ↔
      permissions.contains permission ∨ permission ∈ listed := by
  induction listed generalizing permissions with
  | nil => simp
  | cons first listed ih =>
    rw [foldl_cons, ih, contains_insert, mem_cons, Bool.or_eq_true, beq_iff_eq]
    constructor
    · rintro ((rfl | held) | later)
      · exact .inr (.inl rfl)
      · exact .inl held
      · exact .inr (.inr later)
    · rintro (held | rfl | later)
      · exact .inl (.inr held)
      · exact .inl (.inl rfl)
      · exact .inr later

theorem contains_union (permission : FilePermission) :
    (permissions.union other).contains permission ↔
      permissions.contains permission ∨ other.contains permission := by
  rw [union, contains_foldl_insert, mem_toList]

theorem union_eq_of_size_eq (same : (permissions.union other).size = permissions.size) :
    permissions.union other = permissions := by
  have part : permissions.toList = (permissions.union other).toList.filter permissions.contains := by
    rw [toList, toList, filter_filter]
    refine filter_congr fun permission _ => ?_
    cases held : permissions.contains permission with
    | false => rfl
    | true => exact ((Bool.true_and _).trans ((contains_union permission).mpr (.inl held))).symm
  have sublist : permissions.toList.Sublist (permissions.union other).toList := part ▸ filter_sublist
  have whole : permissions.toList = (permissions.union other).toList := sublist.eq_of_length same.symm
  refine ext_contains fun permission => Bool.eq_iff_iff.mpr ?_
  rw [← mem_toList, ← mem_toList, whole]

end FilePermissions

/-! ## Calls -/

namespace Changing

variable (base : RuleBase) (file : File)

theorem outcome_changeFile_other {rule : Rule} (other : ∀ file, rule.body ≠ .file file)
    (change : File → Changing Unit) : (changeFile change).outcome rule = (.ok (), rule) := by
  obtain ⟨base, body⟩ := rule
  cases body with
  | file file => exact absurd rfl (other file)
  | _ => rfl

theorem outcome_setOwner (owner : Bool) :
    (setOwner owner).outcome ⟨base, .file file⟩ =
      (.ok (), if file.owner = owner then ⟨base, .file file⟩
        else ⟨base.touch, .file { file with owner }⟩) := by
  change (if file.owner = owner then (pure () : Changing Unit) else _).outcome _ = _
  split
  · rfl
  · rfl

theorem outcome_setPath (path : Pattern) :
    (setPath path).outcome ⟨base, .file file⟩ =
      if file.path.isAll then (.error (.misuse .pathOnBareFile), ⟨base, .file file⟩)
      else (.ok (), ⟨base.touch, .file { file with path := .only path }⟩) := by
  change (if file.path.isAll then (throw _ : Changing Unit) else _).outcome _ = _
  split
  · rfl
  · rfl

theorem outcome_addPermissions (letters : SortedSet Char) :
    (addPermissions letters).outcome ⟨base, .file file⟩ =
      match FilePermissions.ofLetters letters, file.permissions with
      | .error error, _ => (.error error, ⟨base, .file file⟩)
      | .ok _, .all => (.ok (), ⟨base, .file file⟩)
      | .ok extra, .only permissions =>
        (.ok (), if permissions.union extra = permissions then ⟨base, .file file⟩
          else ⟨base.touch, .file { file with permissions := .only (permissions.union extra) }⟩) := by
  change (ofChecked (FilePermissions.ofLetters letters) >>= _ : Changing Unit).outcome _ = _
  cases FilePermissions.ofLetters letters with
  | error error => rfl
  | ok extra =>
    obtain ⟨path, permissions, exec, target, owner, fileWord, permissionsFirst⟩ := file
    cases permissions with
    | all => rfl
    | only permissions =>
      change (putFile _ >>= fun _ =>
        if (permissions.union extra).size = permissions.size then (pure () : Changing Unit)
        else touch).outcome _ = _
      by_cases same : permissions.union extra = permissions
      · rw [if_pos (congrArg FilePermissions.size same)]
        dsimp only
        rw [if_pos same, same]
        rfl
      · rw [if_neg fun size => same (FilePermissions.union_eq_of_size_eq size)]
        dsimp only
        rw [if_neg same]
        rfl

end Changing

inductive RuleChange where
  | audit (value : Bool)
  | deny (value : Bool)
  | owner (value : Bool)
  | path (pattern : Pattern)
  | permissions (letters : SortedSet Char)

namespace RuleChange

def perform : RuleChange → Changing Unit
  | .audit value => Changing.setAudit value
  | .deny value => Changing.setDeny value
  | .owner value => Changing.setOwner value
  | .path pattern => Changing.setPath pattern
  | .permissions letters => Changing.addPermissions letters

def audit? : RuleChange → Option Bool
  | .audit value => some value
  | _ => none

def deny? : RuleChange → Option Bool
  | .deny value => some value
  | _ => none

end RuleChange

/-! ## What one call does -/

/-- Another owner, path or set of permissions.  What was for all files still is, no permission is lost,
and mode and target stay. -/
structure File.Widened (file wider : File) : Prop where
  path : wider.path.isAll = file.path.isAll
  permissions : wider.permissions.isAll = file.permissions.isAll
  links : File.links file.permissions = true → File.links wider.permissions = true
  exec : wider.exec = file.exec
  target : wider.target = file.target

theorem File.Widened.refl (file : File) : file.Widened file := ⟨rfl, rfl, id, rfl, rfl⟩

theorem File.Widened.trans {file wider widest : File} (first : file.Widened wider)
    (second : wider.Widened widest) : file.Widened widest where
  path := second.path.trans first.path
  permissions := second.permissions.trans first.permissions
  links := second.links ∘ first.links
  exec := second.exec.trans first.exec
  target := second.target.trans first.target

/-- Only the body of a file rule can be changed. -/
inductive RuleBody.Widened : RuleBody → RuleBody → Prop
  | same (body : RuleBody) : Widened body body
  | file {file wider : File} (widened : file.Widened wider) : Widened (.file file) (.file wider)

theorem RuleBody.Widened.trans {body wider widest : RuleBody} (first : body.Widened wider)
    (second : wider.Widened widest) : body.Widened widest := by
  cases first with
  | same => exact second
  | file widened =>
    cases second with
    | same => exact .file widened
    | file further => exact .file (widened.trans further)

theorem RuleBody.Widened.kind_eq {body wider : RuleBody} (widened : body.Widened wider) :
    wider.kind = body.kind := by
  cases widened <;> rfl

namespace Rule

/-- What a call makes of a rule: the modifiers are those that it asks for, a denial loses the word
`allow`, and the rule is another one only without its text. -/
structure Follows (rule : Rule) (change : RuleChange) (next : Rule) : Prop where
  audit : next.base.audit = change.audit?.getD rule.base.audit
  deny : next.base.deny = change.deny?.getD rule.base.deny
  allowWord : rule.base.Exclusive →
    next.base.allowWord = (rule.base.allowWord && change.deny? != some true)
  text : next = rule ∨ next.base.written = none
  body : rule.body.Widened next.body

theorem Follows.of_body {rule next : Rule} {change : RuleChange} (noAudit : change.audit? = none)
    (noDeny : change.deny? = none) (dropped : next = rule ∨ next.base = rule.base.touch)
    (body : rule.body.Widened next.body) : rule.Follows change next := by
  have modifiers : next.base.audit = rule.base.audit ∧ next.base.deny = rule.base.deny ∧
      next.base.allowWord = rule.base.allowWord := by
    rcases dropped with rfl | base
    · exact ⟨rfl, rfl, rfl⟩
    · rw [base]
      exact ⟨rfl, rfl, rfl⟩
  refine ⟨?_, ?_, fun _ => ?_, ?_, body⟩
  · rw [noAudit, modifiers.1]
    rfl
  · rw [noDeny, modifiers.2.1]
    rfl
  · rw [noDeny, modifiers.2.2]
    exact (Bool.and_true _).symm
  · refine dropped.imp_right fun base => ?_
    rw [base]
    rfl

/-- The rule that a call leaves, whether it succeeds or fails. -/
def change (rule : Rule) (change : RuleChange) : Rule := (change.perform.outcome rule).2

theorem follows_setAudit (rule : Rule) (value : Bool) :
    rule.Follows (.audit value) (rule.change (.audit value)) := by
  obtain ⟨base, body⟩ := rule
  have effect : Rule.change ⟨base, body⟩ (.audit value) = ⟨base.setAudit value, body⟩ := rfl
  rw [effect]
  by_cases same : base.audit = value
  · rw [RuleBase.setAudit, if_pos same]
    exact ⟨same, rfl, fun _ => (Bool.and_true _).symm, .inl rfl, .same body⟩
  · rw [RuleBase.setAudit, if_neg same]
    exact ⟨rfl, rfl, fun _ => (Bool.and_true _).symm, .inr rfl, .same body⟩

theorem follows_setDeny (rule : Rule) (value : Bool) :
    rule.Follows (.deny value) (rule.change (.deny value)) := by
  obtain ⟨base, body⟩ := rule
  have effect : Rule.change ⟨base, body⟩ (.deny value) = ⟨base.setDeny value, body⟩ := rfl
  rw [effect]
  by_cases same : base.deny = value
  · rw [RuleBase.setDeny, if_pos same]
    refine ⟨rfl, same, fun exclusive => ?_, .inl rfl, .same body⟩
    cases value with
    | false => exact (Bool.and_true _).symm
    | true => exact (exclusive same).trans (Bool.and_false _).symm
  · rw [RuleBase.setDeny, if_neg same]
    refine ⟨rfl, rfl, fun _ => ?_, .inr rfl, .same body⟩
    cases value <;> rfl

theorem follows_changeFile {rule : Rule} {change : RuleChange} (other : ∀ file, rule.body ≠ .file file)
    (noAudit : change.audit? = none) (noDeny : change.deny? = none) :
    rule.Follows change (rule.change change) := by
  have effect : rule.change change = rule := by
    cases change with
    | audit | deny => simp [RuleChange.audit?, RuleChange.deny?] at noAudit noDeny
    | owner | path | permissions =>
      exact congrArg Prod.snd (Changing.outcome_changeFile_other other _)
  rw [effect]
  exact .of_body noAudit noDeny (.inl rfl) (.same rule.body)

theorem follows_setOwner (base : RuleBase) (file : File) (value : Bool) :
    Follows ⟨base, .file file⟩ (.owner value) (Rule.change ⟨base, .file file⟩ (.owner value)) := by
  rw [Rule.change, RuleChange.perform, Changing.outcome_setOwner]
  split
  · exact .of_body rfl rfl (.inl rfl) (.same _)
  · exact .of_body rfl rfl (.inr rfl) (.file ⟨rfl, rfl, id, rfl, rfl⟩)

theorem follows_setPath (base : RuleBase) (file : File) (pattern : Pattern) :
    Follows ⟨base, .file file⟩ (.path pattern) (Rule.change ⟨base, .file file⟩ (.path pattern)) := by
  rw [Rule.change, RuleChange.perform, Changing.outcome_setPath]
  split
  · exact .of_body rfl rfl (.inl rfl) (.same _)
  next stated =>
    have only : file.path.isAll = false := by simpa using stated
    exact .of_body rfl rfl (.inr rfl) (.file ⟨only.symm, rfl, id, rfl, rfl⟩)

theorem follows_addPermissions (base : RuleBase) (file : File) (letters : SortedSet Char) :
    Follows ⟨base, .file file⟩ (.permissions letters)
      (Rule.change ⟨base, .file file⟩ (.permissions letters)) := by
  rw [Rule.change, RuleChange.perform, Changing.outcome_addPermissions]
  split
  · exact .of_body rfl rfl (.inl rfl) (.same _)
  · exact .of_body rfl rfl (.inl rfl) (.same _)
  next extra permissions _ held =>
    split
    · exact .of_body rfl rfl (.inl rfl) (.same _)
    · have only : file.permissions.isAll = false := congrArg Extent.isAll held
      refine .of_body rfl rfl (.inr rfl) (.file ⟨rfl, only.symm, fun links => ?_, rfl, rfl⟩)
      rw [held] at links
      exact (FilePermissions.contains_union .link).mpr (.inl links)

theorem follows_change (rule : Rule) (change : RuleChange) : rule.Follows change (rule.change change) := by
  by_cases isFile : ∃ file, rule.body = .file file
  · obtain ⟨base, body⟩ := rule
    obtain ⟨file, rfl⟩ := isFile
    cases change with
    | audit value => exact follows_setAudit _ value
    | deny value => exact follows_setDeny _ value
    | owner value => exact follows_setOwner base file value
    | path pattern => exact follows_setPath base file pattern
    | permissions letters => exact follows_addPermissions base file letters
  · have other : ∀ file, rule.body ≠ .file file := fun file body => isFile ⟨file, body⟩
    cases change with
    | audit value => exact follows_setAudit rule value
    | deny value => exact follows_setDeny rule value
    | owner value => exact follows_changeFile other rfl rfl
    | path pattern => exact follows_changeFile other rfl rfl
    | permissions letters => exact follows_changeFile other rfl rfl

end Rule

theorem RuleChange.unchanged_of_error {change : RuleChange} {rule after : Rule} {error : PolicyError}
    (failure : change.perform.outcome rule = (.error error, after)) : after = rule := by
  by_cases isFile : ∃ file, rule.body = .file file
  · obtain ⟨base, body⟩ := rule
    obtain ⟨file, rfl⟩ := isFile
    cases change with
    | audit value => cases failure
    | deny value => cases failure
    | owner value =>
      rw [perform, Changing.outcome_setOwner] at failure
      cases failure
    | path pattern =>
      rw [perform, Changing.outcome_setPath] at failure
      split at failure
      · exact (congrArg Prod.snd failure).symm
      · cases failure
    | permissions letters =>
      rw [perform, Changing.outcome_addPermissions] at failure
      split at failure
      · exact (congrArg Prod.snd failure).symm
      · cases failure
      · cases failure
  · have other : ∀ file, rule.body ≠ .file file := fun file body => isFile ⟨file, body⟩
    have success := Changing.outcome_changeFile_other other
    cases change with
    | audit value => cases failure
    | deny value => cases failure
    | owner value => cases (success _).symm.trans failure
    | path pattern => cases (success _).symm.trans failure
    | permissions letters => cases (success _).symm.trans failure

/-! ## What many calls do -/

namespace Rule

/-- The rule that calls leave one after the other, whether they succeed or fail. -/
def changed (rule : Rule) (changes : List RuleChange) : Rule := changes.foldl change rule

theorem changed_cons (rule : Rule) (first : RuleChange) (changes : List RuleChange) :
    rule.changed (first :: changes) = (rule.change first).changed changes := rfl

theorem last_changed (modifier : Rule → Bool) {asked : RuleChange → Option Bool}
    (step : ∀ rule change, modifier (Rule.change rule change) = (asked change).getD (modifier rule))
    (rule : Rule) (changes : List RuleChange) :
    modifier (rule.changed changes) = (changes.filterMap asked).getLastD (modifier rule) := by
  induction changes generalizing rule with
  | nil => rfl
  | cons first changes ih =>
    rw [changed_cons, ih, step, filterMap_cons]
    cases asked first with
    | none => rfl
    | some value => exact getLastD_cons.symm

theorem audit_changed (rule : Rule) (changes : List RuleChange) :
    (rule.changed changes).base.audit = (changes.filterMap RuleChange.audit?).getLastD rule.base.audit :=
  last_changed (·.base.audit) (fun rule change => (rule.follows_change change).audit) rule changes

theorem deny_changed (rule : Rule) (changes : List RuleChange) :
    (rule.changed changes).base.deny = (changes.filterMap RuleChange.deny?).getLastD rule.base.deny :=
  last_changed (·.base.deny) (fun rule change => (rule.follows_change change).deny) rule changes

theorem Follows.exclusive {rule next : Rule} {change : RuleChange} (follows : rule.Follows change next)
    (exclusive : rule.base.Exclusive) : next.base.Exclusive := by
  intro denied
  rw [follows.deny] at denied
  rw [follows.allowWord exclusive]
  cases asked : change.deny? with
  | none =>
    rw [asked] at denied
    rw [exclusive denied]
    rfl
  | some value =>
    rw [asked] at denied
    obtain rfl : value = true := denied
    exact Bool.and_false _

theorem exclusive_changed {rule : Rule} (exclusive : rule.base.Exclusive) (changes : List RuleChange) :
    (rule.changed changes).base.Exclusive := by
  induction changes generalizing rule with
  | nil => exact exclusive
  | cons first changes ih => exact ih ((rule.follows_change first).exclusive exclusive)

theorem allowWord_changed {rule : Rule} (exclusive : rule.base.Exclusive) (changes : List RuleChange) :
    (rule.changed changes).base.allowWord ↔ rule.base.allowWord ∧ RuleChange.deny true ∉ changes := by
  induction changes generalizing rule with
  | nil => simp [changed]
  | cons first changes ih =>
    have asks : first.deny? = some true ↔ first = .deny true := by
      cases first <;> simp [RuleChange.deny?]
    have follows := rule.follows_change first
    rw [changed_cons, ih (follows.exclusive exclusive), follows.allowWord exclusive, Bool.and_eq_true,
      bne_iff_ne, ne_eq, asks, mem_cons, not_or, eq_comm (a := first), and_assoc]

theorem body_changed (rule : Rule) (changes : List RuleChange) :
    rule.body.Widened (rule.changed changes).body := by
  induction changes generalizing rule with
  | nil => exact .same rule.body
  | cons first changes ih => exact (rule.follows_change first).body.trans (ih _)

theorem text_changed (rule : Rule) (changes : List RuleChange) :
    rule.changed changes = rule ∨ (rule.changed changes).base.written = none := by
  induction changes generalizing rule with
  | nil => exact .inl rfl
  | cons first changes ih =>
    rw [changed_cons]
    rcases ih (rule.change first) with same | dropped
    · rw [same]
      exact (rule.follows_change first).text
    · exact .inr dropped

/-! ## The text of a rule -/

theorem raw_eq_clean {rule : Rule} (dropped : rule.base.written = none) (depth : Nat) :
    rule.raw depth = rule.clean depth := by
  rw [raw, dropped, clean, Option.getD_none]

theorem same_self (rule : Rule) (strict : Bool) : rule.same rule strict = .ok true := by
  have field : ∀ field : Extent Pattern, field.sameBy Pattern.same field := fun _ =>
    Extent.sameBy_iff.mpr rfl
  have body : rule.body.same? strict rule.body = some true := by
    cases rule.body with
    | file file => simp [RuleBody.same?, File.same, field]
    | _ => simp [RuleBody.same?, ChangeProfile.same, Dbus.same, Ptrace.same, Rlimit.same, Signal.same, field]
  refine same_eq_ok_iff.mpr ⟨rfl, ?_⟩
  simp [sameAs, RuleBase.same, body]

/-- The text of a rule is never out of date.  After any calls, failing ones included, a rule that was read
either still has its text and is strictly the same, or has lost its text and is written in its canonical
form.  A call that fails leaves the rule as it was.  The word `allow` stays until a denial is asked for,
and so never stands beside a denial. -/
theorem changed_current {line : String} {rule : Rule} (read : parse? line = some (.ok rule))
    (changes : List RuleChange) :
    (((rule.changed changes).base.written = some (trimmed line) ∧
        (rule.changed changes).same rule true = .ok true) ∨ ((rule.changed changes).base.written = none ∧
        ∀ depth, (rule.changed changes).raw depth = (rule.changed changes).clean depth)) ∧
    (∀ (change : RuleChange) (error : PolicyError) (after : Rule),
      change.perform.outcome (rule.changed changes) = (.error error, after) →
        after = rule.changed changes) ∧ ((rule.changed changes).base.allowWord = true ↔
      rule.base.allowWord = true ∧ RuleChange.deny true ∉ changes) ∧
    ¬((rule.changed changes).base.deny = true ∧ (rule.changed changes).base.allowWord = true) := by
  obtain ⟨kind, found⟩ := readAs?_of_parse? read
  have exclusive := (stated_of_readAs? found).exclusive
  refine ⟨?_, fun _ _ _ => RuleChange.unchanged_of_error, allowWord_changed exclusive changes, ?_⟩
  · rcases rule.text_changed changes with same | dropped
    · rw [same]
      exact .inl ⟨written_of_readAs? found, same_self rule true⟩
    · exact .inr ⟨dropped, raw_eq_clean dropped⟩
  · rintro ⟨denied, word⟩
    rw [exclusive_changed exclusive changes denied] at word
    cases word

/-- An unknown permission and an audit that is there already leave the text; a denial that is taken back
drops it together with the word `allow`. -/
theorem changed_current_toggled :
    let file : File :=
      { path := .only ⟨"/foo", none⟩, permissions := .only { read := true }, exec := none, target := .all
        owner := false }
    let rule : Rule := ⟨{ allowWord := true, written := some "allow  /foo r," }, .file file⟩
    let idle : List RuleChange := [.permissions (.singleton 'x'), .audit false]
    let toggled := rule.changed [.deny true, .deny false]
    parse? " allow  /foo r, " = some (.ok rule) ∧
      (rule.changed idle).same rule true = .ok true ∧
      toggled.base.allowWord = false ∧ toggled.raw 1 = "  /foo r," := by
  intro file rule idle toggled
  have read : parse? " allow  /foo r, " = some (.ok rule) := by decide +kernel
  obtain ⟨⟨_, same⟩ | ⟨dropped, _⟩, _⟩ := changed_current read idle
  · obtain ⟨⟨kept, _⟩ | ⟨_, written⟩, _, words, _⟩ := changed_current read [.deny true, .deny false]
    · cases kept
    · refine ⟨read, same, ?_, (written 1).trans (by decide +kernel)⟩
      simpa using words
  · cases dropped

end Rule

end ArmorPolicy
