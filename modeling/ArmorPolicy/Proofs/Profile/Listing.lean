import ArmorPolicy.Profile.Parsed
import ArmorPolicy.Proofs.Profile.Tree
import ArmorPolicy.Proofs.Text.Lines

/-!
# What stands in a listing

A listing groups the rules of a scope by kind and writes headers in one style.  `reread` puts a file
into the form that its listing shows: it has the same listings, and its rules stand in the order in
which the listing has them.
-/

namespace ArmorPolicy

open List Text

variable {layout : Layout} {order : List RuleKind} {body : List String} {depth : Nat}
  {file : ParsedFile} {ruleset : Ruleset} {scope : Scope} {line : String}

/-! ## The content of listings -/

def listed (lines : List String) : List (List Char) := content (lines.map String.toList)

theorem listed_append (first second : List String) :
    listed (first ++ second) = listed first ++ listed second := by
  simp [listed, content_append]

theorem listed_cons (line : String) (lines : List String) :
    listed (line :: lines) = listed [line] ++ listed lines :=
  listed_append [line] lines

theorem listed_of_blank {lines : List String} (blank : ∀ line ∈ lines, line.isEmpty) : listed lines = [] := by
  induction lines with
  | nil => rfl
  | cons line lines ih =>
    rw [forall_mem_cons] at blank
    obtain rfl := String.isEmpty_iff.mp blank.1
    rw [listed_cons, ih blank.2]
    rfl

theorem listed_empty : listed [""] = [] := rfl

theorem listed_flatMap {α : Type} (members : List α) (lines : α → List String) :
    listed (members.flatMap lines) = members.flatMap fun a => listed (lines a) := by
  induction members with
  | nil => rfl
  | cons a members ih => rw [flatMap_cons, listed_append, ih, flatMap_cons]

theorem listed_intercalate (groups : List (List String)) :
    listed ([""].intercalate groups) = groups.flatMap listed := by
  induction groups with
  | nil => rfl
  | cons first others ih =>
    cases others with
    | nil => simp
    | cons second others =>
      rw [intercalate_cons_cons, listed_append, listed_append, ih, listed_empty, append_nil]
      rfl

theorem listed_dropEmptyEnd (lines : List String) : listed (Scope.dropEmptyEnd lines) = listed lines := by
  have whole : lines = Scope.dropEmptyEnd lines ++ (lines.reverse.takeWhile String.isEmpty).reverse := by
    rw [Scope.dropEmptyEnd, ← reverse_append, takeWhile_append_dropWhile, reverse_reverse]
  have nothing : listed (lines.reverse.takeWhile String.isEmpty).reverse = [] := by
    apply listed_of_blank
    intro line member
    exact all_eq_true.mp all_takeWhile line (mem_reverse.mp member)
  calc
    listed (Scope.dropEmptyEnd lines) =
        listed (Scope.dropEmptyEnd lines) ++
          listed (lines.reverse.takeWhile String.isEmpty).reverse := by rw [nothing, append_nil]
    _ = listed lines := by rw [← listed_append, ← whole]

theorem listed_closeGroup (lines : List String) : listed (Ruleset.closeGroup lines) = listed lines := by
  unfold Ruleset.closeGroup
  split
  next empty => rw [isEmpty_iff.mp empty]
  · rw [listed_append, listed_empty, append_nil]

theorem listed_indented (depth : Nat) (lines : List String) (tidy : ∀ line ∈ lines, Tidy line.toList) :
    listed (lines.map (indent depth ++ ·)) = lines.map String.toList :=
  content_indented tidy

theorem listed_appendChild (body child : List String) :
    listed (Scope.appendChild body child) = listed body ++ listed child := by
  unfold Scope.appendChild
  split
  next last _ =>
    split
    · exact listed_append body child
    · rw [listed_append, listed_cons, listed_empty, nil_append]
  next nothing =>
    rw [getLast?_eq_none_iff.mp nothing]
    rfl

/-! ## Rules in the order of a listing -/

def Rule.writtenLine (rule : Rule) : List Char := (rule.base.written.getD rule.canonical).toList

namespace Ruleset

/-- The rules in the order in which they are listed. -/
def grouped (order : List RuleKind) (ruleset : Ruleset) : Ruleset :=
  ⟨order.flatMap fun kind => (ruleset.ofKind kind).rules⟩

theorem listed_rawLines (tidy : ∀ rule ∈ ruleset.rules, Tidy rule.writtenLine) :
    listed (ruleset.rawLines depth) = ruleset.rules.map Rule.writtenLine := by
  have shape : (ruleset.rules.map fun rule => rule.raw depth) =
      (ruleset.rules.map fun rule => rule.base.written.getD rule.canonical).map (indent depth ++ ·) := by
    simp [Rule.raw]
  rw [rawLines, listed_closeGroup, shape, listed_indented depth]
  · simp [Function.comp_def, Rule.writtenLine]
  · intro line member
    obtain ⟨rule, among, rfl⟩ := mem_map.mp member
    exact tidy rule among

theorem mem_ofKind {kind : RuleKind} {rule : Rule} :
    rule ∈ (ruleset.ofKind kind).rules ↔ rule ∈ ruleset.rules ∧ rule.kind = kind := by
  simp [ofKind]

theorem mem_grouped {rule : Rule} :
    rule ∈ (ruleset.grouped order).rules ↔ rule ∈ ruleset.rules ∧ rule.kind ∈ order := by
  simp only [grouped, mem_flatMap, mem_ofKind]
  constructor
  · rintro ⟨kind, among, member, rfl⟩
    exact ⟨member, among⟩
  · rintro ⟨member, among⟩
    exact ⟨rule.kind, among, member, rfl⟩

theorem listed_sections (tidy : ∀ rule ∈ ruleset.rules, Tidy rule.writtenLine) :
    listed (ruleset.sections order .asWritten depth) =
      (ruleset.grouped order).rules.map Rule.writtenLine := by
  rw [sections, listed_flatMap, grouped, map_flatMap]
  congr 1
  funext kind
  exact listed_rawLines fun rule member => tidy rule (mem_ofKind.mp member).1

theorem ofKind_ofKind (ruleset : Ruleset) (kind other : RuleKind) :
    (ruleset.ofKind kind).rules.filter (fun rule => rule.kind == other) =
      if kind = other then (ruleset.ofKind kind).rules else [] := by
  split
  next same =>
    rw [filter_eq_self]
    intro rule member
    simpa [same] using (mem_ofKind.mp member).2
  next differs =>
    rw [filter_eq_nil_iff]
    intro rule member
    simpa [(mem_ofKind.mp member).2] using differs

theorem ofKind_grouped (distinct : order.Nodup) (ruleset : Ruleset) {kind : RuleKind}
    (among : kind ∈ order) : (ruleset.grouped order).ofKind kind = ruleset.ofKind kind := by
  have filtered : ∀ order : List RuleKind, order.Nodup →
      (order.flatMap fun other => (ruleset.ofKind other).rules).filter (fun rule => rule.kind == kind) =
        if kind ∈ order then (ruleset.ofKind kind).rules else [] := by
    intro order distinct
    induction order with
    | nil => rfl
    | cons other order ih =>
      rw [nodup_cons] at distinct
      rw [flatMap_cons, filter_append, ofKind_ofKind, ih distinct.2]
      by_cases same : other = kind
      · subst same
        simp [distinct.1]
      · simp [same, Ne.symm same]
  have rules := filtered order distinct
  rw [if_pos among] at rules
  unfold ofKind at rules ⊢
  exact congrArg Ruleset.mk rules

theorem sections_grouped (distinct : order.Nodup) (ruleset : Ruleset) (layout : Layout) (depth : Nat) :
    (ruleset.grouped order).sections order layout depth = ruleset.sections order layout depth := by
  have each : order.map (fun kind => ((ruleset.grouped order).ofKind kind).lines layout depth) =
      order.map (fun kind => (ruleset.ofKind kind).lines layout depth) := by
    apply map_congr_left
    intro kind among
    rw [ofKind_grouped distinct ruleset among]
  rw [sections, sections, flatMap_def, flatMap_def, each]

end Ruleset

/-! ## Scopes -/

theorem nodup_scopeOrder : Ruleset.scopeOrder.Nodup := by decide

theorem nodup_preambleOrder : Preamble.order.Nodup := by decide

namespace Scope

/-- The header is that of a hat, with a sign. -/
def signed (scope : Scope) : Bool := scope.kind = .hat && !scope.external && !scope.profileWord

def worded (scope : Scope) : Bool :=
  scope.profileWord || scope.attachment.isSome ||
    !(scope.headerName.toList.head? == some '/' && scope.kind = .profile)

theorem title_eq (scope : Scope) :
    scope.title =
      if scope.signed then "^" ++ scope.headerName
      else (if scope.worded then "profile " else "") ++ scope.headerName ++
        match scope.attachment with
        | some attachment => " " ++ quoteIfNeeded attachment.glob
        | none => "" := rfl

def reread (filename : String) (scope : Scope) : Scope :=
  { scope with
    filename
    profileWord := if scope.signed then scope.profileWord else scope.worded
    rules := scope.rules.grouped Ruleset.scopeOrder }

variable (filename : String) (scope : Scope)

theorem signed_reread : (scope.reread filename).signed = scope.signed := by
  unfold signed reread
  by_cases hat : (scope.kind = .hat && !scope.external)
  · cases word : scope.profileWord <;> simp_all [signed, worded]
  · simp [hat]

theorem worded_reread (unsigned : scope.signed = false) : (scope.reread filename).worded = scope.worded := by
  have again : (scope.reread filename).worded =
      ((if scope.signed then scope.profileWord else scope.worded) || scope.attachment.isSome ||
        !(scope.headerName.toList.head? == some '/' && scope.kind = .profile)) := rfl
  rw [again, unsigned]
  unfold worded
  cases scope.profileWord <;> cases scope.attachment.isSome <;>
    cases scope.headerName.toList.head? == some '/' && scope.kind = .profile <;> rfl

theorem title_reread : (scope.reread filename).title = scope.title := by
  rw [title_eq, title_eq, signed_reread]
  cases signed : scope.signed with
  | true => rfl
  | false =>
    rw [worded_reread filename scope signed]
    rfl

theorem header_reread (depth : Nat) : (scope.reread filename).header depth = scope.header depth := by
  unfold header
  rw [title_reread]
  rfl

theorem scopeLines_reread (layout : Layout) (depth : Nat) :
    (scope.reread filename).rules.scopeLines layout depth = scope.rules.scopeLines layout depth :=
  Ruleset.sections_grouped nodup_scopeOrder scope.rules layout depth

theorem framed_reread (depth : Nat) (body : List String) :
    (scope.reread filename).framed depth body = scope.framed depth body := by
  unfold framed
  rw [header_reread]
  rfl

theorem header_eq (depth : Nat) : scope.header depth = indent depth ++ scope.header 0 := by
  simp [header, indent, String.append_assoc]

theorem listed_framed (comments : ∀ comment ∈ scope.initialComment, Tidy comment.toList)
    (header : Tidy (scope.header 0).toList) :
    listed (scope.framed depth body) =
      scope.initialComment.map String.toList ++ (scope.header 0).toList :: listed body ++ [['}']] := by
  have headerLine : listed [scope.header depth] = [(scope.header 0).toList] := by
    rw [header_eq]
    exact listed_indented depth [scope.header 0] (by simpa using header)
  have closing : listed [indent depth ++ "\x7d"] = [['}']] := by
    refine listed_indented depth ["\x7d"] ?_
    simp only [forall_mem_cons, not_mem_nil, false_imp_iff, implies_true, and_true]
    exact ⟨⟨'}', [], rfl, by decide⟩, ⟨[], '}', rfl, by decide⟩, by decide⟩
  unfold framed
  rw [listed_append, listed_append, listed_cons, listed_indented depth _ comments, headerLine, closing,
    listed_dropEmptyEnd]
  simp

/-- The lines of a scope around the lines of its children, without indentation. -/
def script (children : List (List Char)) : List (List Char) :=
  scope.initialComment.map String.toList ++ (scope.header 0).toList ::
    (scope.rules.grouped Ruleset.scopeOrder).rules.map Rule.writtenLine ++ children ++ [['}']]

/-- The listing of the scope has the statements as written, and nothing in it needs trimming,
indentation apart. -/
structure TidyLines (layout : Layout) : Prop where
  comments : ∀ comment ∈ scope.initialComment, Tidy comment.toList
  header : Tidy (scope.header 0).toList
  rules : ∀ depth, listed (scope.rules.scopeLines layout depth) =
    (scope.rules.grouped Ruleset.scopeOrder).rules.map Rule.writtenLine

/-- A change of scopes that their listings do not show. -/
structure KeepsLines (layout : Layout) (change : Scope → Scope) : Prop where
  external : ∀ scope, (change scope).external = scope.external
  framed : ∀ scope depth body, (change scope).framed depth body = scope.framed depth body
  rules : ∀ scope depth,
    (change scope).rules.scopeLines layout depth = scope.rules.scopeLines layout depth

theorem KeepsLines.linesAround {change : Scope → Scope} (keeps : KeepsLines layout change) (scope : Scope)
    (children : List (Scope × (Nat → List String))) :
    Scope.linesAround layout (change scope) (children.map fun child => (change child.1, child.2)) =
      Scope.linesAround layout scope children := by
  funext depth
  simp only [Scope.linesAround, filter_map, Function.comp_def, keeps.external, foldl_map, flatMap_map, keeps.framed,
    keeps.rules]

theorem keepsLines_reread (filename : String) (layout : Layout) : KeepsLines layout (reread filename) :=
  ⟨fun _ => rfl, framed_reread filename, fun scope => scopeLines_reread filename scope layout⟩

end Scope

/-! ## Profiles and files -/

namespace Profile

variable {profile : Profile}

def reread (filename : String) : Profile → Profile := mapScopes (Scope.reread filename)

def inside (profile : Profile) : List Profile :=
  profile.inner.values.filter fun child => !child.scope.external

def outside (profile : Profile) : List Profile :=
  profile.inner.values.filter fun child => child.scope.external

theorem lines_eq (layout : Layout) (profile : Profile) (depth : Nat) :
    profile.lines layout depth =
      profile.scope.framed depth ((profile.inside.map fun child => child.lines layout (depth + 1)).foldl
        Scope.appendChild (profile.scope.rules.scopeLines layout (depth + 1))) ++
      (profile.outside.map fun child => child.lines layout depth).flatMap ("" :: ·) := by
  rw [lines, fold_eq]
  simp only [Scope.linesAround, inside, outside, filter_map, foldl_map, flatMap_map, Function.comp_def, lines]

theorem lines_mapScopes {change : Scope → Scope} (keeps : Scope.KeepsLines layout change)
    (profile : Profile) (depth : Nat) :
    (profile.mapScopes change).lines layout depth = profile.lines layout depth :=
  congrFun (fold_mapScopes keeps.linesAround profile) depth

/-- The lines of a profile, without indentation and empty lines. -/
def script (profile : Profile) : List (List Char) :=
  profile.fold fun scope children =>
    scope.script ((children.filter fun child => !child.1.external).flatMap Prod.snd) ++
      (children.filter fun child => child.1.external).flatMap Prod.snd

theorem script_eq (profile : Profile) :
    profile.script = profile.scope.script (profile.inside.flatMap script) ++ profile.outside.flatMap script := by
  rw [script, fold_eq]
  simp only [inside, outside, filter_map, flatMap_map, Function.comp_def]
  rfl

theorem listed_body (children : List (List String)) (body : List String) :
    listed (children.foldl Scope.appendChild body) = listed body ++ children.flatMap listed := by
  induction children generalizing body with
  | nil => simp
  | cons child children ih =>
    rw [foldl_cons, ih, listed_appendChild, flatMap_cons, append_assoc]

theorem listed_lines (tidy : ∀ scope ∈ profile.scopes, scope.TidyLines layout) (depth : Nat) :
    listed (profile.lines layout depth) = profile.script := by
  induction profile using induct generalizing depth with
  | step profile ih =>
    have own : profile.scope.TidyLines layout := tidy _ profile.scope_mem_scopes
    have each : ∀ child ∈ profile.inner.values, ∀ depth, listed (child.lines layout depth) = child.script :=
      fun child member => ih child member fun scope among => tidy scope (scopes_of_mem member among)
    have inner : ∀ depth, (profile.inside.map fun child => child.lines layout depth).flatMap listed =
        profile.inside.flatMap script := by
      intro depth
      rw [flatMap_map]
      exact flatMap_congr fun child member => each child (mem_filter.mp member).1 depth
    have behind : listed ((profile.outside.map fun child => child.lines layout depth).flatMap ("" :: ·)) =
        profile.outside.flatMap script := by
      rw [listed_flatMap, flatMap_map]
      refine flatMap_congr fun child member => ?_
      rw [listed_cons, listed_empty, nil_append, each child (mem_filter.mp member).1]
    rw [lines_eq, script_eq, listed_append, behind, Scope.listed_framed _ own.comments own.header, listed_body,
      own.rules, inner]
    simp [Scope.script]

end Profile

namespace ParsedFile

def reread (filename : String) (file : ParsedFile) : ParsedFile :=
  { filename
    preamble := ⟨file.preamble.ruleset.grouped Preamble.order⟩
    profileNames := file.profileNames
    profiles := file.profiles.map (Profile.reread filename) }

theorem lines_reread (filename : String) (file : ParsedFile) (layout : Layout) :
    (file.reread filename).lines layout = file.lines layout := by
  have preamble : (file.reread filename).preamble.lines layout 0 = file.preamble.lines layout 0 :=
    Ruleset.sections_grouped nodup_preambleOrder file.preamble.ruleset layout 0
  have profiles : (file.reread filename).profiles.map (fun profile => profile.lines layout 0) =
      file.profiles.map fun profile => profile.lines layout 0 := by
    simp [reread, Function.comp_def, Profile.reread, Profile.lines_mapScopes (Scope.keepsLines_reread filename layout)]
  rw [lines, lines, preamble, profiles]

/-- The lines of a file, without indentation and empty lines. -/
def script (file : ParsedFile) : List (List Char) :=
  (file.preamble.ruleset.grouped Preamble.order).rules.map Rule.writtenLine ++
    file.profiles.flatMap Profile.script

theorem listed_lines (preamble : listed (file.preamble.lines layout 0) =
      (file.preamble.ruleset.grouped Preamble.order).rules.map Rule.writtenLine)
    (scopes : ∀ profile ∈ file.profiles, ∀ scope ∈ profile.scopes, scope.TidyLines layout) :
    listed (file.lines layout) = file.script := by
  have profiles : file.profiles.flatMap (fun profile => listed (profile.lines layout 0)) =
      file.profiles.flatMap Profile.script := by
    rw [flatMap_def, flatMap_def]
    congr 1
    apply map_congr_left
    intro profile member
    exact Profile.listed_lines (scopes profile member) 0
  unfold lines script
  rw [listed_dropEmptyEnd, listed_append, listed_intercalate, flatMap_map, profiles, preamble]

end ParsedFile

/-! ## What a single line shows -/

def Rule.shown (layout : Layout) (rule : Rule) : String :=
  match layout with
  | .canonical => rule.canonical
  | .asWritten => rule.base.written.getD rule.canonical

def Indented (shows : String → Prop) (line : String) : Prop :=
  line = "" ∨ ∃ depth text, shows text ∧ line = indent depth ++ text

theorem Indented.imp {shows others : String → Prop} (weaker : ∀ text, shows text → others text)
    (indented : Indented shows line) : Indented others line := by
  rcases indented with rfl | ⟨depth, text, shown, rfl⟩
  · exact .inl rfl
  · exact .inr ⟨depth, text, weaker text shown, rfl⟩

theorem Ruleset.indented_of_mem_lines (member : line ∈ ruleset.lines layout depth) :
    Indented (fun text => ∃ rule ∈ ruleset.rules, text = rule.shown layout) line := by
  have closed : ∀ {lines : List String}, line ∈ closeGroup lines → line = "" ∨ line ∈ lines := by
    intro lines among
    unfold closeGroup at among
    split at among
    · cases among
    · simpa [or_comm] using among
  cases layout with
  | canonical =>
    have group : ∀ {deny : Bool},
        line ∈ sortLines ((ruleset.rules.filter fun rule => rule.base.deny == deny).map
          fun rule => rule.clean depth) →
        ∃ depth text, (∃ rule ∈ ruleset.rules, text = rule.shown .canonical) ∧
          line = indent depth ++ text := by
      intro deny among
      rw [sortLines, mem_mergeSort, mem_map] at among
      obtain ⟨rule, kept, rfl⟩ := among
      exact ⟨depth, rule.canonical, ⟨rule, (mem_filter.mp kept).1, rfl⟩, rfl⟩
    rcases mem_append.mp member with denied | allowed
    · exact (closed denied).imp id group
    · exact (closed allowed).imp id group
  | asWritten =>
    refine (closed member).imp id ?_
    intro among
    obtain ⟨rule, kept, rfl⟩ := mem_map.mp among
    exact ⟨depth, _, ⟨rule, kept, rfl⟩, rfl⟩

theorem Ruleset.indented_of_mem_sections (member : line ∈ ruleset.sections order layout depth) :
    Indented (fun text => ∃ rule ∈ ruleset.rules, text = rule.shown layout) line := by
  obtain ⟨kind, _, among⟩ := mem_flatMap.mp member
  refine (indented_of_mem_lines among).imp ?_
  rintro text ⟨rule, kept, rfl⟩
  exact ⟨rule, (mem_ofKind.mp kept).1, rfl⟩

theorem Scope.mem_of_mem_dropEmptyEnd {lines : List String} (member : line ∈ dropEmptyEnd lines) :
    line ∈ lines := by
  have among := mem_reverse.mp member
  exact mem_reverse.mp ((dropWhile_sublist _).mem among)

/-- What a line of the listing of a scope shows. -/
inductive Scope.Shows (layout : Layout) (scope : Scope) : String → Prop
  | comment {text : String} (member : text ∈ scope.initialComment) : Shows layout scope text
  | header : Shows layout scope (scope.header 0)
  | rule {rule : Rule} (member : rule ∈ scope.rules.rules) : Shows layout scope (rule.shown layout)
  | closing : Shows layout scope "\x7d"

theorem Scope.indented_of_mem_framed {shows : String → Prop}
    (own : ∀ text, scope.Shows layout text → shows text)
    (inner : ∀ line ∈ body, Indented shows line) (member : line ∈ scope.framed depth body) :
    Indented shows line := by
  simp only [framed, mem_append, mem_cons, mem_map, not_mem_nil, or_false] at member
  rcases member with (⟨comment, among, rfl⟩ | rfl | among) | rfl
  · exact .inr ⟨depth, comment, own _ (.comment among), rfl⟩
  · exact .inr ⟨depth, scope.header 0, own _ .header, header_eq scope depth⟩
  · exact inner line (mem_of_mem_dropEmptyEnd among)
  · exact .inr ⟨depth, "\x7d", own _ .closing, rfl⟩

theorem Scope.indented_of_mem_scopeLines (member : line ∈ scope.rules.scopeLines layout depth) :
    Indented (scope.Shows layout) line := by
  refine (Ruleset.indented_of_mem_sections member).imp ?_
  rintro text ⟨rule, among, rfl⟩
  exact .rule among

theorem Scope.mem_appendChild {child : List String} (member : line ∈ appendChild body child) :
    line ∈ body ∨ line = "" ∨ line ∈ child := by
  unfold appendChild at member
  split at member
  · split at member
    · exact (mem_append.mp member).imp id .inr
    · simpa using member
  · exact .inr (.inr member)

theorem mem_intercalate {groups : List (List String)} (member : line ∈ [""].intercalate groups) :
    line = "" ∨ ∃ lines ∈ groups, line ∈ lines := by
  induction groups with
  | nil => cases member
  | cons first others ih =>
    cases others with
    | nil => exact .inr ⟨first, mem_cons_self, by simpa using member⟩
    | cons second others =>
      rw [intercalate_cons_cons, mem_append, mem_append] at member
      rcases member with (here | separator) | further
      · exact .inr ⟨first, mem_cons_self, here⟩
      · exact .inl (mem_singleton.mp separator)
      · rcases ih further with empty | ⟨lines, group, among⟩
        · exact .inl empty
        · exact .inr ⟨lines, mem_cons_of_mem _ group, among⟩

theorem Profile.indented_of_mem_lines {profile : Profile} (member : line ∈ profile.lines layout depth) :
    Indented (fun text => ∃ scope ∈ profile.scopes, scope.Shows layout text) line := by
  induction profile using induct generalizing depth line with
  | step profile ih =>
    have own : ∀ text, profile.scope.Shows layout text → ∃ scope ∈ profile.scopes, scope.Shows layout text :=
      fun text shown => ⟨profile.scope, profile.scope_mem_scopes, shown⟩
    have child : ∀ child ∈ profile.inner.values, ∀ {depth : Nat} {line : String}, line ∈ child.lines layout depth →
        Indented (fun text => ∃ scope ∈ profile.scopes, scope.Shows layout text) line := by
      intro child among depth line shown
      refine (ih child among shown).imp ?_
      rintro text ⟨scope, inside, shows⟩
      exact ⟨scope, scopes_of_mem among inside, shows⟩
    have body : ∀ (children : List (List String)) (start : List String),
        (∀ lines ∈ children, ∀ line ∈ lines,
          Indented (fun text => ∃ scope ∈ profile.scopes, scope.Shows layout text) line) →
        (∀ line ∈ start, Indented (fun text => ∃ scope ∈ profile.scopes, scope.Shows layout text) line) →
        ∀ line ∈ children.foldl Scope.appendChild start,
          Indented (fun text => ∃ scope ∈ profile.scopes, scope.Shows layout text) line := by
      intro children
      induction children with
      | nil => exact fun start _ shown => shown
      | cons lines children ih =>
        intro start among shown
        rw [forall_mem_cons] at among
        refine ih _ among.2 fun line member => ?_
        rcases Scope.mem_appendChild member with here | rfl | there
        · exact shown line here
        · exact .inl rfl
        · exact among.1 line there
    rw [lines_eq, mem_append, flatMap_map, mem_flatMap] at member
    rcases member with framed | ⟨scope, among, shown⟩
    · refine Scope.indented_of_mem_framed own (body _ _ ?_ fun line among => ?_) framed
      · intro lines group line shown
        obtain ⟨inner, held, rfl⟩ := mem_map.mp group
        exact child inner (mem_filter.mp held).1 shown
      · exact (Scope.indented_of_mem_scopeLines among).imp own
    · rcases mem_cons.mp shown with rfl | shown
      · exact .inl rfl
      · exact child scope (mem_filter.mp among).1 shown

/-- What a line of the listing of a file shows. -/
inductive ParsedFile.Shows (layout : Layout) (file : ParsedFile) : String → Prop
  | statement {rule : Rule} (member : rule ∈ file.preamble.ruleset.rules) :
      Shows layout file (rule.shown layout)
  | inScope {profile : Profile} {scope : Scope} {text : String} (member : profile ∈ file.profiles)
      (among : scope ∈ profile.scopes) (shown : scope.Shows layout text) : Shows layout file text

theorem ParsedFile.indented_of_mem_lines (member : line ∈ file.lines layout) :
    Indented (file.Shows layout) line := by
  rcases mem_append.mp (Scope.mem_of_mem_dropEmptyEnd member) with inPreamble | inProfiles
  · refine (Ruleset.indented_of_mem_sections inPreamble).imp ?_
    rintro text ⟨rule, among, rfl⟩
    exact .statement among
  · rcases mem_intercalate inProfiles with rfl | ⟨lines, group, among⟩
    · exact .inl rfl
    · obtain ⟨profile, known, rfl⟩ := mem_map.mp group
      refine (Profile.indented_of_mem_lines among).imp ?_
      rintro text ⟨scope, own, shown⟩
      exact .inScope known own shown

theorem ParsedFile.oneLine_of_mem_lines (oneLine : ∀ text, file.Shows layout text → '\n' ∉ text.toList)
    (member : line ∈ file.lines layout) : '\n' ∉ line.toList := by
  rcases indented_of_mem_lines member with rfl | ⟨depth, text, shown, rfl⟩
  · simp
  · rw [String.toList_append, mem_append]
    rintro (inIndent | inText)
    · exact absurd (eq_space_of_mem_indent inIndent) (by decide)
    · exact oneLine text shown inText

end ArmorPolicy
