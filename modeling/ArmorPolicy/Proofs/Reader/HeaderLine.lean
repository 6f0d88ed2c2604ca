import ArmorPolicy.Proofs.Reader.Reread

/-!
# A header and a closing brace

Two lines, a header and a closing brace, are the shortest text of a profile.  What such a text gives
depends on its header alone, and the header that the profile is listed with gives the same profile
again exactly where its name and its attachment are legible.
-/

namespace ArmorPolicy

open Option Text Line LineForm

namespace Scope

/-! ## Legible headers -/

/-- The headers state the same, but for the word `profile`. -/
structure SameHeader (other scope : Scope) : Prop where
  name : other.name = scope.name
  attachment : other.attachment = scope.attachment
  flags : other.flags = scope.flags
  xattrs : other.xattrs = scope.xattrs
  comment : other.headerComment = scope.headerComment

/-- What is read from a header that opens a profile of its own. -/
structure Headed (scope : Scope) : Prop where
  root : scope.Root
  stated : scope.WellStated
  empty : scope.initialComment = [] ∧ scope.rules = {}
  valid : ∀ pattern, scope.attachment = some pattern → Pattern.ofText pattern.glob true = .ok pattern

variable {scope : Scope}

namespace Headed

theorem signed (headed : scope.Headed) : scope.signed = false := by
  simp [Scope.signed, headed.root.kind]

theorem shownName (headed : scope.Headed) : scope.shownName = scope.name := by
  simp [Scope.shownName, headed.root.inFile]

theorem legible_of_header? (headed : scope.Headed) {header : HeaderLine}
    (read : header? (scope.header 0).toList = some header) (name : header.name = scope.name)
    (attachment : header.attachment = scope.details.attachment) : scope.LegibleHeader := by
  have stated := headed.stated
  have fitting := stated.fitting
  have tidy := tidy_header stated
  rw [toList_header stated, opening, headed.signed, if_neg Bool.false_ne_true] at read tidy
  rw [← headed.shownName] at name
  have legible : ∀ glob ∈ scope.details.attachment, details? (detailsText scope.details) = some header.toHeaderDetails →
      LegibleAttachment glob.toList := fun glob given found =>
    legibleAttachment_of_details? given (fitting.attachment glob given).1 found (attachment.trans given)
  cases worded : scope.worded with
  | true =>
    obtain ⟨c, rest, shape, _⟩ := detailsText_starts fitting
    rw [worded, if_pos rfl, header?_word] at read
    obtain ⟨⟨written, behind⟩, cut, detailed⟩ := bind_eq_some_iff.mp read
    obtain ⟨details, found, rfl⟩ := map_eq_some_iff.mp detailed
    have legibleName : LineForm.LegibleName scope.shownName.toList := by
      refine legibleName_of_name? stated.named ?_ cut (by simp [← name, textOf])
      exact fun inner first => startsPath_of_quotation (fun glob given => (fitting.attachment glob given).1) first
    obtain rfl : behind = detailsText scope.details := by
      rw [trimStart_of_startsSolid (startsSolid_of_legibleName stated.named legibleName _), shape,
        name?_quoteIfNeeded stated.named stated.name.1 legibleName] at cut
      rw [shape, (Prod.mk.inj (Option.some.inj cut)).2]
    refine ⟨by rwa [worded, Bool.or_true, if_pos rfl], ?_⟩
    intro pattern attached
    exact legible pattern.glob (congrArg (Option.map Pattern.glob) attached) found
  | false =>
    obtain ⟨plain, path, noAttachment⟩ := path_of_unworded worded
    rw [worded, if_neg Bool.false_ne_true, plain, List.nil_append] at read tidy
    refine ⟨?_, by simp [noAttachment]⟩
    rw [headed.signed, worded, Bool.or_false, if_neg Bool.false_ne_true]
    exact legiblePath_of_header? path tidy.oneLine read (by rw [name])

end Headed

end Scope

namespace Reader

/-! ## Headers outside of profiles -/

variable {filename : String} {line : List Char} {scope : Scope}

def Heads (filename : String) (line : List Char) (scope : Scope) : Prop :=
  ∃ header, LineForm.ofLine line = .header header ∧
    ReaderState.splitDoubleSlash? header.name.toList = none ∧
    ReaderState.dressed { name := header.name, kind := .profile, filename } header = .ok scope

theorem ne_nil_of_heads (heads : Heads filename line scope) : line ≠ [] := by
  obtain ⟨header, form, _⟩ := heads
  rintro rfl
  cases form

theorem headed_of_heads (tidy : Tidy line) (heads : Heads filename line scope) : scope.Headed := by
  obtain ⟨header, form, whole, dressed⟩ := heads
  have read := readHeader_of_ofLine form
  have opens := opens_of_dressed form rfl dressed []
  obtain ⟨attachment, given, valid, rfl⟩ := dressed_eq_ok dressed
  exact ⟨⟨rfl, rfl, rfl, whole⟩, opens.wellStated tidy nofun, ⟨rfl, rfl⟩, valid⟩

theorem heads_header_iff (filename : String) (headed : scope.Headed) :
    (∃ other, Heads filename (scope.header 0).toList other ∧ other.SameHeader scope) ↔
      scope.LegibleHeader := by
  constructor
  · rintro ⟨other, ⟨header, form, _, dressed⟩, same⟩
    obtain ⟨attachment, given, _, rfl⟩ := dressed_eq_ok dressed
    refine headed.legible_of_header? (header?_of_ofLine form) same.name ?_
    rw [Scope.details, ← same.attachment, given, map_map]
    exact (map_id' ).symm
  · intro legible
    have faithful : scope.Faithful := by
      refine ⟨?_, Scope.tidy_header headed.stated, Scope.ofLine_header headed.stated legible, headed.valid, headed.stated.flags_eq, ?_⟩
      · simp [headed.empty.1]
      · simp [headed.empty.2]
    have form : scope.form = .header scope.headerLine := by
      rw [Scope.form, headed.signed, if_neg Bool.false_ne_true]
      rfl
    have named : scope.headerLine.name = scope.name := headed.shownName
    have whole : ReaderState.splitDoubleSlash? scope.headerLine.name.toList = none :=
      named ▸ headed.root.name
    refine ⟨_, ⟨_, faithful.form.trans form, whole, faithful.dressed_eq_ok⟩, ?_⟩
    exact ⟨named, rfl, rfl, rfl, rfl⟩

/-! ## A line and a closing brace -/

section Closed

variable {hatsFor : String → List String} {state next : ReaderState} {start : Nat}

theorem lines_closed {line : String} (oneLine : '\n' ∉ line.toList) :
    lines (line ++ "\n\x7d").toList = [dropCarriageReturn line.toList, ['}']] := by
  have noBreak : ∀ c ∈ line.toList, (c == '\n') = false := by
    intro c member
    rw [beq_eq_false_iff_ne]
    rintro rfl
    exact oneLine member
  have pieces : splitAt (· == '\n') (line ++ "\n\x7d").toList = [line.toList, ['}']] := by
    rw [String.toList_append]
    exact splitAt_append_cons noBreak rfl ['}']
  rw [lines, pieces]
  rfl

theorem planText_of_heads {line : String} (oneLine : '\n' ∉ line.toList)
    (heads : Heads filename (trim line.toList) scope) :
    planText .profiles (fun _ => []) filename (line ++ "\n\x7d") =
      { result := .ok { filename, finished := [{ scope }], names := [scope.name] } } := by
  have solid : (trim line.toList).isEmpty = false := by simpa using ne_nil_of_heads heads
  obtain ⟨header, form, whole, dressed⟩ := heads
  have opened : stepAs .profiles (fun _ => []) { filename } (trim line.toList) 1 =
      .ok { filename, stack := [{ scope }] } := by
    obtain ⟨attachment, _, _, rfl⟩ := dressed_eq_ok dressed
    simp [stepAs, form, ReaderState.openProfile, ReaderState.openedScope, ReaderState.topScope, whole, dressed, bind, Except.bind,
      pure, Except.pure]
  have closed : stepAs .profiles (fun _ => []) { filename, stack := [{ scope }] } ['}'] 2 =
      .ok { filename, finished := [{ scope }], names := [scope.name] } := by
    obtain ⟨attachment, _, _, rfl⟩ := dressed_eq_ok dressed
    rfl
  have silent : asked { filename } (trim line.toList) = [] := by simp [asked, form]
  have ending : plan .profiles (fun _ => []) 2 [['}']] { filename, stack := [{ scope }] } =
      { result := .ok { filename, finished := [{ scope }], names := [scope.name] } } := plan_cons rfl rfl rfl closed
  have whole : plan .profiles (fun _ => []) 1 [dropCarriageReturn line.toList, ['}']] { filename } =
      { result := .ok { filename, finished := [{ scope }], names := [scope.name] } } := by
    rw [← trim_dropCarriageReturn] at solid opened silent
    rw [plan_cons rfl solid silent opened, ending]
  simp only [planText, lines_closed oneLine, whole]
  rfl

theorem heads_of_stepAs {line : List Char} {header : HeaderLine} (form : ofLine line = .header header)
    (stepped : stepAs .profiles hatsFor { filename } line start = .ok next) :
    ∃ scope, Heads filename line scope := by
  have opened : ReaderState.openProfile .profiles { filename } header = .ok next := by
    simpa [stepAs, form] using stepped
  obtain ⟨_, base, scope, top, dressed, _⟩ := openProfile_eq_ok opened
  simp only [ReaderState.openedScope, ReaderState.topScope] at top
  split at top
  next whole =>
    cases top
    exact ⟨scope, header, form, whole, dressed⟩
  · cases top

theorem heads_of_planText {line : String} (oneLine : '\n' ∉ line.toList) {profile : Profile}
    (ended : (planText .profiles (fun _ => []) filename (line ++ "\n\x7d")).result = .ok state)
    (member : profile ∈ state.finished) :
    ∃ scope, Heads filename (trim line.toList) scope ∧ profile = { scope } := by
  obtain ⟨last, reached, finished⟩ := Checked.bind_eq_ok.mp ended
  obtain ⟨rfl, _⟩ := finish_eq_ok finished
  simp only [lines_closed oneLine] at reached
  rcases plan_cons_eq_ok reached with ⟨_, rest⟩ | ⟨next, stepped, rest⟩
  · rcases plan_cons_eq_ok rest with ⟨blank, _⟩ | ⟨_, impossible, _⟩
    · cases blank
    · cases impossible
  rw [trim_dropCarriageReturn] at stepped
  by_cases opens : ∃ header, ofLine (trim line.toList) = .header header
  · obtain ⟨header, form⟩ := opens
    obtain ⟨scope, heads⟩ := heads_of_stepAs form stepped
    rw [planText_of_heads oneLine heads] at ended
    cases ended
    exact ⟨scope, heads, List.mem_singleton.mp member⟩
  · have outside := outside_of_stepAs rfl (.inr fun header form => opens ⟨header, form⟩) stepped
    have noneYet := ((turn_of_stepAs stepped).kept_of_outside rfl).1
    rcases plan_cons_eq_ok rest with ⟨blank, _⟩ | ⟨final, closed, ended⟩
    · cases blank
    · have noneBehind := ((turn_of_stepAs closed).kept_of_outside outside).1
      cases ended
      rw [noneBehind, noneYet] at member
      cases member

end Closed

theorem text_closed_iff (files : FileSystem) {session : Session} {line : String} {profile : Profile}
    (noHats : session.config.requiredHats = []) (oneLine : '\n' ∉ line.toList) :
    (∃ file after, (Reading.text files (line ++ "\n\x7d") filename).outcome session = (.ok file, after) ∧
        profile ∈ file.profiles) ↔
      ∃ scope, Heads filename (trim line.toList) scope ∧ profile = { scope } := by
  have hats : session.config.hatsFor = fun _ => [] :=
    funext fun name => by simp [Config.hatsFor, noHats]
  constructor
  · rintro ⟨file, after, success, member⟩
    obtain ⟨state, _, planned, rfl⟩ := Include.text_eq_ok success
    rw [hats] at planned
    exact heads_of_planText oneLine planned member
  · rintro ⟨scope, heads, rfl⟩
    obtain ⟨warnings, outcome⟩ := Include.follows_text files (line ++ "\n\x7d") filename session rfl rfl
    rw [Include.loadText, hats, planText_of_heads oneLine heads] at outcome
    exact ⟨_, _, outcome, List.mem_singleton_self _⟩

end Reader

/-! ## Headers are read back -/

/-- A line that opens a profile when a closing brace follows it, gives a scope whose own header opens
the same profile again, with the same name, attachment, flags, attributes and comment, exactly where
name and attachment are legible in it. -/
theorem Reading.header_reread_iff {files : FileSystem} {filename line : String}
    {session after : Session} {file : ParsedFile} {profile : Profile}
    (noHats : session.config.requiredHats = []) (oneLine : '\n' ∉ line.toList)
    (success : (Reading.text files (line ++ "\n\x7d") filename).outcome session = (.ok file, after))
    (opened : profile ∈ file.profiles) :
    (∃ again later other,
        (Reading.text files (profile.scope.header 0 ++ "\n\x7d") filename).outcome session =
          (.ok again, later) ∧ other ∈ again.profiles ∧ other.scope.SameHeader profile.scope) ↔
      profile.scope.LegibleHeader := by
  obtain ⟨scope, heads, rfl⟩ :=
    (Reader.text_closed_iff files noHats oneLine).mp ⟨file, after, success, opened⟩
  have headed : scope.Headed :=
    Reader.headed_of_heads (tidy_trim (Reader.ne_nil_of_heads heads) oneLine) heads
  have tidy : Tidy (scope.header 0).toList := Scope.tidy_header headed.stated
  constructor
  · rintro ⟨again, later, other, reread, member, same⟩
    obtain ⟨found, opens, rfl⟩ :=
      (Reader.text_closed_iff files noHats tidy.oneLine).mp ⟨again, later, reread, member⟩
    rw [tidy.trim_eq] at opens
    exact (Reader.heads_header_iff filename headed).mp ⟨found, opens, same⟩
  · intro legible
    obtain ⟨found, opens, same⟩ := (Reader.heads_header_iff filename headed).mpr legible
    rw [← tidy.trim_eq] at opens
    obtain ⟨again, later, reread, member⟩ :=
      (Reader.text_closed_iff files noHats tidy.oneLine).mpr ⟨found, opens, rfl⟩
    exact ⟨again, later, { scope := found }, reread, member, same⟩

/-- A name and an attachment with spaces, and everything else that a header can hold. -/
def Reading.headerText : String :=
  "\"/a b\" \"/x\x7b,y\x7d z\" xattrs=(u=v w) flags=(complain,audit) \x7b # c"

theorem Reading.header_reread_spaces :
    ∃ file after profile again later other,
      (Reading.text {} (headerText ++ "\n\x7d") "f").outcome {} = (.ok file, after) ∧
        profile ∈ file.profiles ∧ profile.scope.header 0 =
          "profile \"/a b\" \"/x\x7b,y\x7d z\" xattrs=(u=v w) flags=(audit, complain) \x7b # c" ∧
        (Reading.text {} (profile.scope.header 0 ++ "\n\x7d") "f").outcome {} = (.ok again, later) ∧
        other ∈ again.profiles ∧ other.scope.SameHeader profile.scope := by
  obtain ⟨file, after, result, profile, member, header, legible⟩ := Reading.exists_ok
    ((Reading.text {} (headerText ++ "\n\x7d") "f").outcome {})
    (fun file => ∃ profile ∈ file.profiles, profile.scope.header 0 =
        "profile \"/a b\" \"/x\x7b,y\x7d z\" xattrs=(u=v w) flags=(audit, complain) \x7b # c" ∧
      profile.scope.LegibleHeader) (by decide +kernel)
  obtain ⟨again, later, other, reread, among, same⟩ :=
    (Reading.header_reread_iff rfl (by decide) result member).mpr legible
  exact ⟨file, after, profile, again, later, other, result, member, header, reread, among, same⟩

/-- A brace in an attachment, with no space, is written without quotation marks, and the header cannot
be read. -/
theorem Reading.header_unreadable :
    ∃ file after profile error,
      (Reading.text {} "profile p \"/x\x7ba,b\x7d\" \x7b\n\x7d" "f").outcome {} = (.ok file, after) ∧
        profile ∈ file.profiles ∧ profile.scope.header 0 = "profile p /x\x7ba,b\x7d \x7b" ∧
        ((Reading.text {} "profile p /x\x7ba,b\x7d \x7b\n\x7d" "f").outcome {}).1 = .error error := by
  obtain ⟨file, after, result, profile, member, header⟩ := Reading.exists_ok
    ((Reading.text {} "profile p \"/x\x7ba,b\x7d\" \x7b\n\x7d" "f").outcome {})
    (fun file => ∃ profile ∈ file.profiles, profile.scope.header 0 = "profile p /x\x7ba,b\x7d \x7b")
    (by decide +kernel)
  exact ⟨file, after, profile, _, result, member, header, rfl⟩

end ArmorPolicy
