import ArmorPolicy.Proofs.Reader.Invariant

/-!
# Listings are read back

The listing as written of a file that was read, is read again, and the result has the same
listings, where names and attachments need no quotation marks.
-/

namespace ArmorPolicy

open Text Line

variable {file : ParsedFile} {root : String}

/-! ## Scopes -/

def Unquoted (text : String) : Prop := ∀ c ∈ text.toList, isBlank c = false ∧ c ≠ '{' ∧ c ≠ '"'

instance (text : String) : Decidable (Unquoted text) :=
  inferInstanceAs (Decidable (∀ c ∈ text.toList, _))

theorem Unquoted.nameChar {text : String} (unquoted : Unquoted text) :
    ∀ c ∈ text.toList, LineForm.nameChar c := by
  intro c member
  obtain ⟨solid, brace, mark⟩ := unquoted c member
  simp [LineForm.nameChar, isSolid, solid, brace, mark]

theorem Unquoted.solid {text : String} (unquoted : Unquoted text) : ∀ c ∈ text.toList, isSolid c := by
  intro c member
  simp [isSolid, (unquoted c member).1]

theorem Unquoted.append {first second : String} (one : Unquoted first) (other : Unquoted second) :
    Unquoted (first ++ second) := by
  intro c member
  rw [String.toList_append, List.mem_append] at member
  exact member.elim (one c) (other c)

def Scope.Unquoted (scope : Scope) : Prop :=
  ArmorPolicy.Unquoted scope.name ∧ ∀ pattern ∈ scope.attachment, ArmorPolicy.Unquoted pattern.glob

instance (scope : Scope) : Decidable scope.Unquoted :=
  inferInstanceAs (Decidable (_ ∧ ∀ pattern ∈ scope.attachment, _))

namespace Scope

variable {scope : Scope}

theorem flags_of_text {flags : Option String} (text : ∀ text, flags = some text → ')' ∉ text.toList) :
    ∀ flag ∈ ((flags.map Flags.ofText).getD .empty).toList, Flags.IsFlag flag := by
  cases flags with
  | none => simp [SortedSet.empty]
  | some text' => exact fun flag member => Flags.isFlag_of_mem_ofText (text text' rfl) member

theorem Opens.wellStated {line : List Char} (opens : scope.Opens line) (tidy : Tidy line)
    (hat : scope.signed → scope.attachment = none ∧ scope.xattrs = none) : scope.WellStated := by
  cases opens with
  | header header form name word attachment valid xattrs flags comment =>
    have read := LineForm.readHeader_of_ofLine form
    have details := read.details
    refine ⟨?_, ?_, ?_, ?_, ?_, ?_, hat⟩
    · rw [name]
      simpa using read.nonempty
    · rw [name]
      exact ⟨read.quotable, fun newline => tidy.oneLine (read.within newline)⟩
    · intro pattern attached
      rw [attachment] at attached
      obtain ⟨glob, given, rfl⟩ := Option.map_eq_some_iff.mp attached
      obtain ⟨path, quotable, within⟩ := details.attachment glob given
      exact ⟨path, quotable, fun newline => tidy.oneLine (within newline)⟩
    · intro text given
      obtain ⟨trimmed, closed, within⟩ := details.xattrs text (xattrs ▸ given)
      exact ⟨trimmed, closed, fun newline => tidy.oneLine (within newline)⟩
    · rw [flags]
      exact flags_of_text fun text given => (details.flags text given).1
    · rw [comment]
      exact details.comment
  | hat line form name word attachment xattrs flags comment =>
    have read := LineForm.readHat_of_ofLine form
    refine ⟨?_, ?_, ?_, ?_, ?_, ?_, hat⟩
    · rw [name]
      simpa using read.nonempty
    · rw [name]
      exact ⟨read.quotable, fun newline => tidy.oneLine (read.within newline)⟩
    · simp [attachment]
    · simp [xattrs]
    · rw [flags]
      exact flags_of_text fun text given => (read.flags text given).1
    · rw [comment]
      exact read.comment

theorem Sound.attachment (sound : scope.Sound) : ∀ pattern, scope.attachment = some pattern →
    Pattern.ofText pattern.glob true = .ok pattern := by
  obtain ⟨line, _, opens⟩ := sound.opened
  cases opens with
  | header header form name word attachment valid xattrs flags comment => exact valid
  | hat line form name word attachment xattrs flags comment => simp [attachment]

theorem Sound.wellStated (sound : scope.Sound) : scope.WellStated := by
  obtain ⟨line, tidy, opens⟩ := sound.opened
  refine opens.wellStated tidy fun sign => ?_
  simp only [signed, Bool.and_eq_true, decide_eq_true_eq, Bool.not_eq_true'] at sign
  obtain ⟨_, attachment, xattrs, _⟩ := sound.hat sign.1.1 sign.1.2
  exact ⟨attachment, xattrs⟩

theorem Sound.faithful (sound : scope.Sound) (legible : scope.LegibleHeader) : scope.Faithful where
  comments comment member :=
    have kept := sound.comments comment member
    ⟨kept.tidy, kept.form, kept.current⟩
  header := tidy_header sound.wellStated
  form := ofLine_header sound.wellStated legible
  attachment := sound.attachment
  flags := sound.wellStated.flags_eq
  rules := sound.rules

theorem Sound.childOf (sound : scope.Sound) (belongs : scope.BelongsTo root) :
    scope.ExternalHatOf root ∨ scope.InternalHatOf root ∨ scope.InnerProfileOf root := by
  cases external : scope.external with
  | true =>
    obtain ⟨other, hat⟩ := sound.behind external
    obtain rfl : other = root := Option.some.inj (hat.parent.symm.trans belongs.parent)
    exact .inl hat
  | false =>
    rcases belongs.kind with child | hat
    · obtain ⟨word, comment⟩ := sound.child child
      exact .inr (.inr ⟨child, external, belongs.parent, word, comment⟩)
    · obtain ⟨word, attachment, xattrs, comment⟩ := sound.hat hat external
      exact .inr (.inl ⟨hat, external, belongs.parent, word, attachment, xattrs, comment⟩)

theorem Unquoted.shownName (unquoted : scope.Unquoted)
    (parent : ∀ root ∈ scope.parent, ArmorPolicy.Unquoted root) : ArmorPolicy.Unquoted scope.shownName := by
  unfold Scope.shownName fullName
  split
  · split
    next root given => exact ((parent root given).append (by decide)).append unquoted.1
    · exact unquoted.1
  · exact unquoted.1

theorem Unquoted.legibleHeader (unquoted : scope.Unquoted)
    (parent : ∀ root ∈ scope.parent, ArmorPolicy.Unquoted root) : scope.LegibleHeader := by
  have name := unquoted.shownName parent
  constructor
  · split
    · exact .inr name.nameChar
    · refine ⟨name.solid, ?_⟩
      rintro ⟨start, rest, text⟩
      exact (name '{' (by simp [← text])).2.1 rfl
  · intro pattern attached
    have glob := unquoted.2 pattern attached
    exact .inr fun c member => ⟨glob.solid c member, (glob c member).2.1⟩

end Scope

/-! ## Files -/

theorem Rule.kind_eq_of_clashes {earlier later : Rule} (clash : earlier.Clashes later) :
    earlier.kind = later.kind := by
  unfold Clashes at clash
  split at clash
  next first second => simp [Rule.kind, first, second, RuleBody.kind]
  next first second => simp [Rule.kind, first, second, RuleBody.kind]
  · exact clash.elim

theorem Ruleset.clear_grouped {order : List RuleKind} (distinct : order.Nodup) {ruleset : Ruleset}
    (clear : Rule.Clear ruleset.rules) :
    Rule.Clear (ruleset.grouped order).rules := by
  unfold grouped
  induction order with
  | nil => exact List.Pairwise.nil
  | cons kind order ih =>
    rw [List.nodup_cons] at distinct
    refine List.pairwise_append.mpr ⟨clear.filter _, ih distinct.2, ?_⟩
    intro earlier first later second clash
    obtain ⟨other, among, member⟩ := List.mem_flatMap.mp second
    have same := Rule.kind_eq_of_clashes clash
    rw [(mem_ofKind.mp first).2, (mem_ofKind.mp member).2] at same
    exact distinct.1 (same ▸ among)

theorem Profile.Structured.faithful {profile : Profile} (structured : profile.Structured)
    (faithful : profile.Every Scope.Faithful) (sound : profile.Every Scope.Sound) : profile.Faithful where
  scope := faithful.own
  root := structured.root
  keys entry member := (structured.children entry member).1
  alone := structured.alone
  children child member := by
    obtain ⟨entry, among, rfl⟩ := List.mem_map.mp member
    have inside := scopes_of_mem member entry.2.scope_mem_scopes
    exact ⟨faithful _ inside, (sound _ inside).childOf (structured.children entry among).2.2⟩

theorem ParsedFile.Sound.faithful_of_legible (sound : file.Sound)
    (legible : ∀ profile ∈ file.profiles, ∀ scope ∈ profile.scopes, scope.LegibleHeader) :
    file.Faithful where
  preamble rule member := (sound.preamble rule member).1
  clear := Ruleset.clear_grouped nodup_preambleOrder sound.clear
  profiles profile member :=
    have lines := sound.profiles profile member
    (sound.structured.profiles profile member).faithful
      (fun scope among => (lines scope among).faithful (legible profile member scope among)) lines
  names := sound.structured.names
  distinct := sound.structured.distinct

theorem ParsedFile.Sound.faithful (sound : file.Sound)
    (unquoted : ∀ profile ∈ file.profiles, ∀ scope ∈ profile.scopes, scope.Unquoted) : file.Faithful := by
  refine sound.faithful_of_legible fun profile member scope among => ?_
  refine (unquoted profile member scope among).legibleHeader fun root parent => ?_
  have root := (sound.structured.profiles profile member).parent scope among parent
  rw [root]
  exact (unquoted profile member profile.scope profile.scope_mem_scopes).1

/-- The listing of a faithful file is read, in any plain session, as a file with the same
listings. -/
theorem ParsedFile.Faithful.exists_reading (faithful : file.Faithful) {lines : List String}
    (oneLine : ∀ line ∈ lines, '\n' ∉ line.toList) (same : listed lines = file.script)
    (files : FileSystem) (filename : String) {session : Session} (plain : session.Plain) :
    ∃ again after,
      (Reading.text files ("\n".intercalate lines) filename).outcome session = (.ok again, after) ∧
        ∀ layout, again.lines layout = file.lines layout := by
  obtain ⟨state, scanned, parsed⟩ := scanText_of_listed faithful filename oneLine same
  obtain ⟨warnings, outcome⟩ := Reader.gives_text files ("\n".intercalate lines) filename session plain
  rw [scanned] at outcome
  refine ⟨state.parsed, { session with warnings }, outcome, ?_⟩
  intro layout
  rw [parsed, ParsedFile.lines_reread]

/-- The listing as written of a file that was read is read again, and the result has the same
listings. -/
theorem Reading.outcome_text_listing {files : FileSystem} {content filename : String}
    {session after : Session} {file : ParsedFile} (plain : session.Plain)
    (read : (Reading.text files content filename).outcome session = (.ok file, after))
    (unquoted : ∀ profile ∈ file.profiles, ∀ scope ∈ profile.scopes, scope.Unquoted)
    (otherFiles : FileSystem) (otherName : String) {otherSession : Session}
    (otherPlain : otherSession.Plain) :
    ∃ again otherAfter,
      (Reading.text otherFiles ("\n".intercalate (file.lines .asWritten)) otherName).outcome
          otherSession = (.ok again, otherAfter) ∧ again.lines .asWritten = file.lines .asWritten ∧
        again.lines .canonical = file.lines .canonical := by
  obtain ⟨state, scanned, rfl⟩ := Reader.outcome_text_eq_ok plain read
  have faithful := (sound_scanText scanned).faithful unquoted
  have oneLine : ∀ line ∈ state.parsed.lines .asWritten, '\n' ∉ line.toList := fun line member =>
    ParsedFile.oneLine_of_mem_lines (fun text shown => faithful.oneLine shown) member
  obtain ⟨again, otherAfter, outcome, same⟩ := faithful.exists_reading oneLine faithful.listed_lines
    otherFiles otherName otherPlain
  exact ⟨again, otherAfter, outcome, same .asWritten, same .canonical⟩

/-- A statement on two lines, a hat inside its profile and one behind it. -/
def Reading.hatText : String :=
  "profile a /b \x7b # c\n deny /b\n  r,\n hat h \x7b\n\x7d\n\x7d\nprofile a//e \x7b\n\x7d\n"

theorem Reading.outcome_text_listing_hats :
    ∃ file after again otherAfter,
      (Reading.text {} hatText "a").outcome .unresolved = (.ok file, after) ∧
        file.profiles.map (fun profile => profile.children.keys) = [["e", "h"]] ∧
        (Reading.text {} ("\n".intercalate (file.lines .asWritten)) "a").outcome .unresolved =
          (.ok again, otherAfter) ∧
        again.lines .asWritten = file.lines .asWritten ∧
        again.lines .canonical = file.lines .canonical := by
  obtain ⟨file, after, result, keys, unquoted⟩ := Reading.exists_ok
    ((Reading.text {} hatText "a").outcome .unresolved)
    (fun file => file.profiles.map (fun profile => profile.children.keys) = [["e", "h"]] ∧
      ∀ profile ∈ file.profiles, ∀ scope ∈ profile.scopes, scope.Unquoted) (by decide +kernel)
  obtain ⟨again, otherAfter, reading, raw, clean⟩ :=
    Reading.outcome_text_listing .unresolved result unquoted {} "a" .unresolved
  exact ⟨file, after, again, otherAfter, result, keys, reading, raw, clean⟩

end ArmorPolicy
