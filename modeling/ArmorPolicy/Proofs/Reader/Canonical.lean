import ArmorPolicy.Proofs.Profile.Canonical
import ArmorPolicy.Proofs.Reader.Reread
import ArmorPolicy.Proofs.Rule.RoundTrip

/-!
# Canonical listings are read back

The canonical listing of a file that was read is read again, and the result has the same canonical
listing, as long as no variable of the file is both defined and extended.  Such a variable gets lost:
the sign of an extension sorts before that of a definition, and a variable that is known cannot be
defined any more.
-/

namespace ArmorPolicy

open Checked List Text Line

/-! ## Variables in canonical order -/

namespace Ruleset

variable {ruleset : Ruleset}

def Settled (ruleset : Ruleset) : Prop :=
  ∀ defined ∈ ruleset.assignments, ∀ added ∈ ruleset.assignments,
    defined.mode = .define → added.mode = .append → defined.name ≠ added.name

instance (ruleset : Ruleset) : Decidable ruleset.Settled :=
  inferInstanceAs (Decidable (∀ defined ∈ ruleset.assignments, _))

/-- Where no variable is defined and extended, it does not matter which of two statements comes
first. -/
theorem Settled.clashes_swap (settled : ruleset.Settled) {earlier later : Rule}
    (first : earlier ∈ ruleset.rules) (second : later ∈ ruleset.rules)
    (clash : later.Clashes earlier) : earlier.Clashes later := by
  unfold Rule.Clashes at clash ⊢
  split at clash
  next known new knownBody newBody =>
    rw [knownBody, newBody]
    refine ⟨?_, clash.2.symm⟩
    cases mode : known.mode with
    | define => rfl
    | append =>
      exact absurd clash.2.symm (settled new (mem_assignments.mpr ⟨earlier, first, newBody⟩) known
        (mem_assignments.mpr ⟨later, second, knownBody⟩) clash.1 mode)
  next known new knownBody newBody =>
    rw [knownBody, newBody]
    exact clash.symm
  · exact clash.elim

theorem Settled.clear_canonized (settled : ruleset.Settled)
    (clear : Rule.Clear ruleset.rules) :
    Rule.Clear ruleset.canonized.rules := by
  have both : ruleset.rules.Pairwise fun earlier later =>
      ¬earlier.Clashes later ∧ ¬later.Clashes earlier :=
    clear.imp_of_mem fun first second apart =>
      ⟨apart, fun clash => apart (settled.clashes_swap first second clash)⟩
  have rewritten : (ruleset.rules.map Rule.rewritten).Pairwise fun earlier later =>
      ¬earlier.Clashes later ∧ ¬later.Clashes earlier := pairwise_map.mpr both
  have sorted := (ruleset.canonized_perm.pairwise_iff fun apart => ⟨apart.2, apart.1⟩).mpr rewritten
  exact sorted.imp And.left

end Ruleset

theorem Rule.compare_canonical {defining extending : Rule} {defined added : Assignment}
    (definedBody : defining.body = .assignment defined) (addedBody : extending.body = .assignment added)
    (define : defined.mode = .define) (append : added.mode = .append) (same : defined.name = added.name) :
    (compare defining.canonical extending.canonical).isLE = false := by
  have canonical : ∀ {rule : Rule} {assignment : Assignment}, rule.body = .assignment assignment →
      ∃ behind, rule.canonical = (assignment.name ++ " ") ++ (assignment.mode.sign ++ behind) := by
    intro rule assignment body
    have kind : rule.kind = .assignment := by
      rw [Rule.kind, body]
      rfl
    have hidden : rule.kind.showsModifiers = false := by
      rw [kind]
      rfl
    refine ⟨" " ++ spaced (assignment.values.toList.map Assignment.valueText) ++ rule.kind.terminator ++
      rule.base.comment, ?_⟩
    simp [Rule.canonical, hidden, body, RuleBody.text, Assignment.text, String.append_assoc]
  obtain ⟨one, first⟩ := canonical definedBody
  obtain ⟨other, second⟩ := canonical addedBody
  have less : "+=" ++ other < "=" ++ one := by
    rw [String.lt_iff]
    simp [cons_lt_cons_iff]
  have before : compare (AssignMode.append.sign ++ other) (AssignMode.define.sign ++ one) = .lt := if_pos less
  rw [first, second, define, append, same, compare_append_left, Std.OrientedOrd.eq_swap, before]
  rfl

theorem Rule.Faithful.deny_eq_false {rule : Rule} (faithful : rule.Faithful) (kind : rule.kind = .assignment) :
    rule.base.deny = false := by
  obtain ⟨other, found⟩ := readAs?_of_parse? faithful.read
  rw [String.toList_ofList] at found
  obtain rfl : other = .assignment := (kind_of_readAs? found).symm.trans kind
  simp only [readAs?, Assignment.read?] at found
  obtain ⟨_, _, _, _, _, decision⟩ := readBy_withoutModifiers_eq_ok found
  exact (RuleBase.decision_eq_unstated_iff.mp decision).1

theorem related_of_pairwise {α : Type} {R : α → α → Prop} {members : List α} (sorted : members.Pairwise R)
    {a b : α} (first : a ∈ members) (second : b ∈ members) : a = b ∨ R a b ∨ R b a := by
  have closure : members.Pairwise fun a b => a = b ∨ R a b ∨ R b a :=
    sorted.imp fun related => .inr (.inl related)
  have flipped : members.Pairwise (flip fun a b => a = b ∨ R a b ∨ R b a) :=
    sorted.imp fun related => .inr (.inr related)
  exact closure.forall_of_forall_of_flip (fun _ _ => .inl rfl) flipped first second

theorem Ruleset.settled_of_clear {ruleset : Ruleset} (faithful : ∀ rule ∈ ruleset.rules, rule.Faithful)
    (clear : Rule.Clear (ruleset.canonized.ofKind .assignment).rules) : ruleset.Settled := by
  intro defined isDefined added isAdded define append same
  obtain ⟨defining, among, definedBody⟩ := mem_assignments.mp isDefined
  obtain ⟨extending, amongToo, addedBody⟩ := mem_assignments.mp isAdded
  have kept : ∀ {rule : Rule} {assignment : Assignment}, rule ∈ ruleset.rules →
      rule.body = .assignment assignment →
      rule ∈ (ruleset.ordered false).filter fun rule => rule.kind == .assignment := by
    intro rule assignment member body
    have kind : rule.kind = .assignment := by
      rw [Rule.kind, body]
      rfl
    have allowing := (faithful rule member).deny_eq_false kind
    simp [ordered, mem_mergeSort, member, kind, allowing]
  rw [ofKind_canonized, map_append, Rule.Clear, pairwise_append] at clear
  have apart : Rule.Clear ((ruleset.ordered false).filter fun rule => rule.kind == .assignment) := pairwise_map.mp clear.2.1
  have sorted := apart.and ((pairwise_mergeSort_text Rule.canonical _).filter _)
  have order := Rule.compare_canonical definedBody addedBody define append same
  rcases related_of_pairwise sorted (kept among definedBody) (kept amongToo addedBody) with
    equal | before | behind
  · rw [equal, addedBody] at definedBody
    cases definedBody
    rw [define] at append
    cases append
  · rw [order] at before
    cases before.2
  · exact behind.1 ((Rule.clashes_assignment_iff definedBody).mpr ⟨define, added, addedBody, same.symm⟩)

theorem clear_of_scan {filename : String} {known rules : List Rule} {lines rest : List (List Char)}
    {number : Nat} {final : ReaderState}
    (faithful : ∀ rule ∈ rules, rule.Faithful ∧ rule.kind ∈ Preamble.order)
    (clear : Rule.Clear known)
    (shown : content lines = rules.map Rule.writtenLine ++ rest)
    (success : Reader.scan number lines (.ready filename ⟨⟨known⟩⟩ [] [] []) = .ok final) :
    Rule.Clear (known ++ rules) := by
  induction lines generalizing known rules number with
  | nil =>
    cases rules with
    | nil => rwa [append_nil]
    | cons rule rules => cases shown
  | cons line lines ih =>
    rw [content_cons] at shown
    rw [Reader.scan_cons] at success
    by_cases blank : (trim line).isEmpty
    · rw [if_pos blank] at shown success
      exact ih faithful clear shown success
    · rw [if_neg blank] at shown success
      cases rules with
      | nil => rwa [append_nil]
      | cons rule rules =>
        obtain ⟨text, further⟩ := List.cons.inj shown
        rw [forall_mem_cons] at faithful
        obtain ⟨⟨first, kind⟩, others⟩ := faithful
        obtain ⟨next, taken, later⟩ := bind_eq_ok.mp success
        have placed : Reader.step (.ready filename ⟨⟨known⟩⟩ [] [] []) rule.writtenLine number =
            .ok next := text ▸ mapError_eq_ok taken
        rw [step_preamble first kind] at placed
        obtain ⟨filled, defined, rfl⟩ := map_eq_ok.mp placed
        have unknown : ∀ earlier ∈ known, ¬earlier.Clashes rule := by
          intro earlier member clash
          have refusal : ∃ error, Ruleset.define ⟨known⟩ rule = .error error :=
            Ruleset.define_of_clash member clash
          obtain ⟨error, refused⟩ := refusal
          rw [refused] at defined
          cases defined
        rw [Ruleset.define_of_no_clash unknown] at defined
        cases defined
        have longer : Rule.Clear (known ++ [rule]) :=
          pairwise_append.mpr ⟨clear, pairwise_singleton _ _, by simpa using unknown⟩
        simpa using ih others longer further later

/-! ## Files in canonical form -/

theorem Rule.Stated.faithful {rule : Rule} (stated : rule.Stated (.ok rule.rewritten)) :
    rule.rewritten.Faithful := by
  refine ⟨stated.tidy, stated.form, ?_⟩
  have read := stated.read
  rwa [← String.ofList_toList (s := rule.canonical)] at read

/-- Every line of the file's canonical listing is read as what it states, apart from the order in
which variables are defined. -/
structure ParsedFile.Restated (file : ParsedFile) : Prop where
  faithful : file.Faithful
  preamble : ∀ rule ∈ file.preamble.ruleset.rules, rule.Stated (.ok rule.rewritten)
  scopes : ∀ profile ∈ file.profiles, ∀ scope ∈ profile.scopes, ∀ rule ∈ scope.rules.rules,
    rule.Stated (.ok rule.rewritten)

theorem Ruleset.faithful_canonized {ruleset : Ruleset}
    (stated : ∀ rule ∈ ruleset.rules, rule.Stated (.ok rule.rewritten)) :
    ∀ rule ∈ ruleset.canonized.rules, rule.Faithful := by
  intro rule member
  obtain ⟨original, among, rfl⟩ := mem_canonized.mp member
  exact (stated original among).faithful

theorem Scope.Faithful.canonized {scope : Scope} (faithful : scope.Faithful)
    (stated : ∀ rule ∈ scope.rules.rules, rule.Stated (.ok rule.rewritten)) :
    scope.canonized.Faithful := by
  refine ⟨faithful.comments, faithful.header, faithful.form, faithful.attachment, faithful.flags, ?_⟩
  intro rule member
  obtain ⟨original, among, rfl⟩ := Ruleset.mem_canonized.mp member
  exact ⟨(stated original among).faithful, (faithful.rules original among).2⟩

theorem Profile.scopes_mapScopes (change : Scope → Scope) (profile : Profile) :
    (profile.mapScopes change).scopes = profile.scopes.map change := by
  induction profile using Profile.induct with
  | step profile ih =>
    rw [scopes_eq, scopes_eq, inner_mapScopes, SortedMap.values_mapValues, flatMap_map, flatMap_congr ih,
      List.map_cons, map_flatMap]
    rfl

theorem Profile.Faithful.canonized {profile : Profile} (faithful : profile.Faithful)
    (stated : ∀ scope ∈ profile.scopes, ∀ rule ∈ scope.rules.rules, rule.Stated (.ok rule.rewritten)) :
    (profile.mapScopes Scope.canonized).Faithful := by
  rw [scopes_eq_of_alone faithful.alone, forall_mem_cons, forall_mem_map] at stated
  obtain ⟨own, inner⟩ := stated
  have root := faithful.root
  refine ⟨faithful.scope.canonized own, ⟨root.kind, root.inFile, root.parent, root.name⟩, ?_, ?_, ?_⟩ <;>
    rw [inner_mapScopes]
  · intro entry member
    obtain ⟨original, among, rfl⟩ := mem_map.mp member
    exact faithful.keys original among
  · rw [SortedMap.values_mapValues, forall_mem_map]
    intro child member
    rw [inner_mapScopes, faithful.alone child member]
    rfl
  · rw [SortedMap.values_mapValues, forall_mem_map]
    intro original among
    obtain ⟨lines, place⟩ := faithful.children original among
    refine ⟨lines.canonized (inner original among), ?_⟩
    rcases place with ⟨kind, external, parent, name⟩ |
      ⟨kind, external, parent, word, attachment, xattrs, comment⟩ |
      ⟨kind, external, parent, word, comment⟩
    · exact .inl ⟨kind, external, parent, name⟩
    · exact .inr (.inl ⟨kind, external, parent, word, attachment, xattrs, comment⟩)
    · exact .inr (.inr ⟨kind, external, parent, word, comment⟩)

namespace ParsedFile.Restated

variable {file : ParsedFile}

theorem faithful_canonized (restated : file.Restated) (settled : file.preamble.ruleset.Settled)
    (clear : Rule.Clear file.preamble.ruleset.rules) :
    file.canonized.Faithful := by
  have same : (file.canonized.profiles.map fun profile => profile.scope.name) =
      file.profiles.map fun profile => profile.scope.name := by
    rw [canonized, map_map]
    rfl
  refine ⟨Ruleset.faithful_canonized restated.preamble,
    Ruleset.clear_grouped nodup_preambleOrder (settled.clear_canonized clear), ?_, ?_, ?_⟩
  · intro profile member
    obtain ⟨original, among, rfl⟩ := mem_map.mp member
    exact (restated.faithful.profiles original among).canonized (restated.scopes original among)
  · exact restated.faithful.names.trans same.symm
  · rw [same]
    exact restated.faithful.distinct

theorem listed_lines (restated : file.Restated) : listed (file.lines .canonical) = file.canonized.script := by
  rw [← file.lines_canonized]
  refine ParsedFile.listed_lines ?_ ?_
  · have tidy : ∀ rule ∈ file.preamble.ruleset.rules, Tidy rule.canonical.toList :=
      fun rule member => (restated.preamble rule member).tidy
    have same : file.canonized.preamble.lines .canonical 0 =
        file.preamble.ruleset.sections Preamble.order .canonical 0 :=
      Ruleset.sections_canonized Preamble.order file.preamble.ruleset 0
    rw [same]
    exact Ruleset.listed_sections_canonical tidy
  · intro profile member scope among
    obtain ⟨original, known, rfl⟩ := mem_map.mp member
    rw [Profile.scopes_mapScopes] at among
    obtain ⟨source, own, rfl⟩ := mem_map.mp among
    have faithful := (restated.faithful.profiles original known).scopes source own
    exact Scope.tidyLines_canonized (fun comment kept => (faithful.comments comment kept).1)
      faithful.header fun rule kept => (restated.scopes original known source own rule kept).tidy

theorem oneLine (restated : file.Restated) {line : String} (member : line ∈ file.lines .canonical) :
    '\n' ∉ line.toList := by
  refine ParsedFile.oneLine_of_mem_lines ?_ member
  intro text shown
  cases shown with
  | statement among => exact (restated.preamble _ among).tidy.oneLine
  | @inScope profile scope _ known own shown =>
    have faithful := (restated.faithful.profiles profile known).scopes scope own
    cases shown with
    | comment kept => exact (faithful.comments _ kept).1.oneLine
    | header => exact faithful.header.oneLine
    | rule kept => exact (restated.scopes profile known scope own _ kept).tidy.oneLine
    | closing => decide

theorem settled_of_scan (restated : file.Restated) {filename : String} {state : ReaderState}
    (success : Reader.scanText filename ("\n".intercalate (file.lines .canonical)) = .ok state) :
    file.preamble.ruleset.Settled := by
  have faithful : ∀ rule ∈ (file.canonized.preamble.ruleset.grouped Preamble.order).rules,
      rule.Faithful ∧ rule.kind ∈ Preamble.order := by
    intro rule member
    obtain ⟨among, kind⟩ := Ruleset.mem_grouped.mp member
    exact ⟨Ruleset.faithful_canonized restated.preamble rule among, kind⟩
  obtain ⟨final, scanned, _⟩ := bind_eq_ok.mp success
  have shown : content (Text.lines ("\n".intercalate (file.lines .canonical)).toList) =
      file.canonized.script := by
    rw [content_lines_intercalate fun line => restated.oneLine]
    exact restated.listed_lines
  have clear : Rule.Clear ([] ++ (file.canonized.preamble.ruleset.grouped Preamble.order).rules) :=
    clear_of_scan faithful List.Pairwise.nil shown scanned
  have assigned := clear.filter fun rule => rule.kind == .assignment
  have same : (file.canonized.preamble.ruleset.grouped Preamble.order).ofKind .assignment =
      file.preamble.ruleset.canonized.ofKind .assignment :=
    Ruleset.ofKind_grouped nodup_preambleOrder _ (by decide)
  refine Ruleset.settled_of_clear (fun rule member => restated.faithful.preamble rule member) ?_
  rw [← same]
  exact assigned

end ParsedFile.Restated

def ParsedFile.statements (file : ParsedFile) : List Rule :=
  file.preamble.ruleset.rules ++ file.profiles.flatMap fun profile =>
    profile.scopes.flatMap fun scope => scope.rules.rules

theorem ParsedFile.Sound.restated {file : ParsedFile} (sound : file.Sound)
    (legible : ∀ profile ∈ file.profiles, ∀ scope ∈ profile.scopes, scope.LegibleHeader)
    (restatable : ∀ rule ∈ file.statements, rule.Restatable) : file.Restated := by
  have stated : ∀ rule ∈ file.statements, rule.Faithful → rule.Stated (.ok rule.rewritten) :=
    fun rule member faithful =>
      (Rule.recovered faithful.tidy.oneLine (restatable rule member) faithful.read).stated faithful.tidy
        faithful.form
  refine ⟨sound.faithful_of_legible legible, ?_, ?_⟩
  · intro rule member
    exact stated rule (mem_append_left _ member) (sound.preamble rule member).1
  · intro profile member scope among rule kept
    have lines := sound.profiles profile member scope among
    refine stated rule (mem_append_right _ ?_) (lines.rules rule kept).1
    exact mem_flatMap.mpr ⟨profile, member, mem_flatMap.mpr ⟨scope, among, kept⟩⟩

section Outcome

variable {files otherFiles : FileSystem} {content filename otherName : String}
  {session after otherSession otherAfter : Session} {file again : ParsedFile}

theorem ParsedFile.sound_of_outcome (plain : session.Plain)
    (read : (Reading.text files content filename).outcome session = (.ok file, after)) : file.Sound := by
  obtain ⟨state, scanned, rfl⟩ := Reader.outcome_text_eq_ok plain read
  exact sound_scanText scanned

theorem ParsedFile.Restated.settled_of_outcome (restated : file.Restated) (plain : otherSession.Plain)
    (read : (Reading.text otherFiles ("\n".intercalate (file.lines .canonical)) otherName).outcome
      otherSession = (.ok again, otherAfter)) : file.preamble.ruleset.Settled := by
  obtain ⟨state, scanned, _⟩ := Reader.outcome_text_eq_ok plain read
  exact restated.settled_of_scan scanned

end Outcome

/-- The canonical listing of a file that was read is read again, as a file with the same canonical
listing, exactly where no variable is both defined and extended. -/
theorem Reading.outcome_text_canonical_iff {files : FileSystem} {content filename : String}
    {session after : Session} {file : ParsedFile} (plain : session.Plain)
    (read : (Reading.text files content filename).outcome session = (.ok file, after))
    (legible : ∀ profile ∈ file.profiles, ∀ scope ∈ profile.scopes, scope.LegibleHeader)
    (restatable : ∀ rule ∈ file.statements, rule.Restatable)
    (otherFiles : FileSystem) (otherName : String) {otherSession : Session}
    (otherPlain : otherSession.Plain) :
    (∃ again otherAfter,
      (Reading.text otherFiles ("\n".intercalate (file.lines .canonical)) otherName).outcome
          otherSession = (.ok again, otherAfter) ∧ again.lines .canonical = file.lines .canonical) ↔
      file.preamble.ruleset.Settled := by
  have sound := ParsedFile.sound_of_outcome plain read
  have restated := sound.restated legible restatable
  constructor
  · rintro ⟨again, otherAfter, outcome, _⟩
    exact restated.settled_of_outcome otherPlain outcome
  · intro settled
    have faithful := restated.faithful_canonized settled sound.clear
    obtain ⟨again, otherAfter, outcome, same⟩ := faithful.exists_reading (fun line => restated.oneLine)
      restated.listed_lines otherFiles otherName otherPlain
    exact ⟨again, otherAfter, outcome, (same .canonical).trans file.lines_canonized⟩

/-- Extensions of a variable that is not defined, a denial behind another rule, and quotation marks in
values, a header, a path and a comment. -/
def Reading.unorderedText : String :=
  "@\x7bx\x7d += \"/c d\"\n@\x7bx\x7d += /b\n\"/e \x7bf,g\x7d\" \x7b\n \"/d e\" r, # \"h\"\n deny /b w,\n\x7d\n"

theorem Reading.outcome_text_canonical_unordered :
    ∃ file after again otherAfter,
      (Reading.text {} unorderedText "a").outcome .unresolved = (.ok file, after) ∧
        file.statements.map Rule.canonical =
          ["@\x7bx\x7d += \"/c d\"", "@\x7bx\x7d += /b", "\"/d e\" r, # \"h\"", "deny /b w,"] ∧
        (Reading.text {} ("\n".intercalate (file.lines .canonical)) "a").outcome .unresolved =
          (.ok again, otherAfter) ∧
        again.lines .canonical = file.lines .canonical := by
  obtain ⟨file, after, result, shown, legible, restatable, settled⟩ := Reading.exists_ok
    ((Reading.text {} unorderedText "a").outcome .unresolved)
    (fun file => file.statements.map Rule.canonical =
        ["@\x7bx\x7d += \"/c d\"", "@\x7bx\x7d += /b", "\"/d e\" r, # \"h\"", "deny /b w,"] ∧
      (∀ profile ∈ file.profiles, ∀ scope ∈ profile.scopes, scope.LegibleHeader) ∧
      (∀ rule ∈ file.statements, rule.Restatable) ∧ file.preamble.ruleset.Settled) (by decide +kernel)
  obtain ⟨again, otherAfter, reading, same⟩ :=
    (Reading.outcome_text_canonical_iff .unresolved result legible restatable {} "a" .unresolved).mpr settled
  exact ⟨file, after, again, otherAfter, result, shown, reading, same⟩

def Reading.extendedText : String := "@\x7bx\x7d = /a\n@\x7bx\x7d += /b\n"

/-- The text is read, and its canonical listing is not. -/
theorem Reading.outcome_text_canonical_extended :
    ∃ file after,
      (Reading.text {} extendedText "a").outcome .unresolved = (.ok file, after) ∧ ¬∃ again otherAfter,
        (Reading.text {} ("\n".intercalate (file.lines .canonical)) "a").outcome .unresolved =
          (.ok again, otherAfter) := by
  obtain ⟨file, after, result, legible, restatable, unsettled⟩ := Reading.exists_ok
    ((Reading.text {} extendedText "a").outcome .unresolved)
    (fun file => (∀ profile ∈ file.profiles, ∀ scope ∈ profile.scopes, scope.LegibleHeader) ∧
      (∀ rule ∈ file.statements, rule.Restatable) ∧ ¬file.preamble.ruleset.Settled) (by decide +kernel)
  have restated := (ParsedFile.sound_of_outcome .unresolved result).restated legible restatable
  refine ⟨file, after, result, ?_⟩
  rintro ⟨again, otherAfter, reading⟩
  exact unsettled (restated.settled_of_outcome .unresolved reading)

end ArmorPolicy
