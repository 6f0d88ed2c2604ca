import ArmorPolicy.Proofs.Glob.Compilation

/-!
# Globs for literal texts

The escaped form of a text is a glob that matches this text and no other one.  Patterns of logged
events are made of it, so a pattern covers one of them exactly if it matches what that one matches.
-/

namespace ArmorPolicy.Glob

open List
variable {c : Char} {rest : List Char}

/-! ## The tokens of an escaped text -/

/-- What a character of a literal text is read as; only commas are not escaped. -/
def literalToken (c : Char) : Token := if c = ',' then .comma else literal c

theorem needsEscape_of_mem_signs (sign : c ∈ signs) (noComma : c ≠ ',') : needsEscape c := by
  simp only [signs, mem_cons, not_mem_nil, or_false] at sign
  rcases sign with rfl | rfl | rfl | rfl | rfl | rfl | rfl
  all_goals first | rfl | exact absurd rfl noComma

theorem head?_escape_append_ne (escaped : needsEscape c) (noBackslash : c ≠ '\\')
    (absent : rest.head? ≠ some c) (text : List Char) : (escape text ++ rest).head? ≠ some c := by
  cases text with
  | nil => exact absent
  | cons d text =>
    by_cases needs : needsEscape d
    · simpa [escape, needs] using noBackslash.symm
    · intro same
      obtain rfl : d = c := by simpa [escape, needs] using same
      exact needs escaped

theorem escape_append (first second : List Char) :
    escape (first ++ second) = escape first ++ escape second := by
  induction first with
  | nil => rfl
  | cons c first ih =>
    by_cases needs : needsEscape c
    · simp [escape, needs, ih]
    · simp [escape, needs, ih]

theorem mem_escape_iff (other : c ≠ '\\') {text : List Char} : c ∈ escape text ↔ c ∈ text := by
  induction text with
  | nil => rfl
  | cons d rest ih =>
    by_cases needs : needsEscape d
    · simp [escape, needs, ih, other]
    · simp [escape, needs, ih]

theorem variableName?_escape (noBrace : rest.head? ≠ some '{') (text : List Char) :
    variableName? (escape text ++ rest) = none := by
  have absent := head?_escape_append_ne rfl (by decide) noBrace text
  unfold variableName?
  split
  next shape => simp [shape] at absent
  · rfl

theorem tokensFrom_escape_append (noBrace : rest.head? ≠ some '{') (text : List Char) :
    tokensFrom 0 (escape text ++ rest) = text.map literalToken ++ tokensFrom 0 rest := by
  induction text with
  | nil => rfl
  | cons c text ih =>
    by_cases needs : needsEscape c
    · have noComma : c ≠ ',' := by
        rintro rfl
        exact absurd needs (by decide)
      simp [escape, needs, tokensFrom, literalToken, noComma, ih]
    · by_cases comma : c = ','
      · subst comma
        simp [escape, needs, tokensFrom, literalToken, ih]
      · have noSign : c ∉ signs := fun sign => needs (needsEscape_of_mem_signs sign comma)
        have noVariable : ¬ StartsVariable (c :: (escape text ++ rest)) := by
          rw [startsVariable_iff, variableName?_escape noBrace]
          simp
        rw [escape, if_neg needs, cons_append, tokensFrom_plain noSign noVariable, ih]
        simp [literalToken, comma]

theorem tokens_escape_append (noSign : ∀ sign ∈ ['{', '^'], rest.head? ≠ some sign) (text : List Char) :
    tokens (escape text ++ rest) = text.map literalToken ++ tokensFrom 0 rest := by
  have noCaret := head?_escape_append_ne rfl (by decide) (noSign '^' (by decide)) text
  have kept : withoutCaret (escape text ++ rest) = escape text ++ rest := by
    unfold withoutCaret
    split
    next shape => simp [shape] at noCaret
    · rfl
  rw [tokens_eq, kept, tokensFrom_escape_append (noSign '{' (by decide))]

theorem tokens_escape (text : List Char) : tokens (escape text) = text.map literalToken := by
  have whole := @tokens_escape_append [] (by simp) text
  simpa [tokensFrom] using whole

theorem ofText_escape_backslash (text : List Char) :
    ofText (escape text ++ ['\\']) = ofText (escape (text ++ ['\\'])) := by
  have noSign : ∀ sign ∈ ['{', '^'], ['\\'].head? ≠ some sign := by decide
  rw [ofText, ofText, tokens_escape, tokens_escape_append noSign, map_append]
  rfl

/-! ## The language of an escaped text -/

theorem foldl_read_literals (text : List Char) (outer : List Glob) :
    (text.map literalToken).foldl Reading.read ⟨[], outer⟩ =
      ⟨[], (text.map fun c => Glob.atom (.char c)).reverse ++ outer⟩ := by
  induction text generalizing outer with
  | nil => rfl
  | cons c rest ih =>
    have step : Reading.read ⟨[], outer⟩ (literalToken c) = ⟨[], .atom (.char c) :: outer⟩ := by
      by_cases comma : c = ','
      · subst comma
        rfl
      · simp [literalToken, comma, literal, Reading.read, Reading.push]
    rw [map_cons, foldl_cons, step, ih]
    simp

theorem ofText_escape (text : List Char) :
    ofText (escape text) = ofSeq (text.map fun c => .atom (.char c)) := by
  rw [ofText, tokens_escape, ofTokens, Reading.start, foldl_read_literals]
  simp [Reading.finish]

theorem expression?_literals (literals : List Char) :
    (ofSeq (literals.map fun c => .atom (.char c))).expression? =
      some (.ofSeq (literals.map fun c => .one (.single c))) := by
  induction literals with
  | nil => rfl
  | cons c rest ih => simp [ofSeq, expression?, Atom.expression?, Expression.ofSeq, ih]

theorem accepts_literals_iff {before : Option Char} {literals text : List Char} :
    (Expression.ofSeq (literals.map fun c => .one (.single c))).Accepts before text ↔ text = literals := by
  induction literals generalizing before text with
  | nil => rfl
  | cons c rest ih =>
    rw [map_cons, Expression.ofSeq, Expression.Accepts]
    constructor
    · rintro ⟨_, behind, rfl, ⟨d, rfl, same⟩, accepted⟩
      rw [(contains_single d c).mp same, ih.mp accepted]
      rfl
    · rintro rfl
      exact ⟨[c], rest, rfl, ⟨c, rfl, (contains_single c c).mpr rfl⟩, ih.mpr rfl⟩

theorem means_escape_iff (literals text : List Char) :
    (ofText (escape literals)).Means text ↔ text = literals := by
  rw [Means, ofText_escape, expression?_literals]
  simp [accepts_literals_iff]

theorem escape_injective {first second : List Char} (same : escape first = escape second) :
    first = second := by
  rw [← means_escape_iff, ← same, means_escape_iff]

theorem toList_regexBody_literals (literals : List Char) :
    (ofSeq (literals.map fun c => .atom (.char c))).regexBody.toList =
      literals.flatMap fun c => if Expression.isSign c then ['\\', c] else [c] := by
  have special (c : Char) : isRegexSpecial c = Expression.isSign c := by
    rw [Bool.eq_iff_iff]
    simp [isRegexSpecial, Expression.isSign, or_assoc]
  induction literals with
  | nil => rfl
  | cons c rest ih =>
    by_cases sign : Expression.isSign c
    · simp [ofSeq, regexBody, Atom.regex, charRegex, special, sign, ih]
    · simp [ofSeq, regexBody, Atom.regex, charRegex, special, sign, ih]

end ArmorPolicy.Glob

/-! ## Patterns of logged events -/

namespace ArmorPolicy.Pattern

variable {isPath : Bool} {pattern : Pattern} {literal : String}

def OfEvent (pattern : Pattern) : Prop :=
  ∃ literal isPath, ofLogEvent literal isPath = .ok pattern

theorem ofText_eq_ok {glob : String} (made : ofText glob isPath = .ok pattern) : pattern = ⟨glob, none⟩ := by
  unfold ofText at made
  split at made
  · cases made
  · split at made
    · cases made
    · cases made
      rfl

theorem ofText_false_eq_ok_iff {glob : String} :
    ofText glob false = .ok pattern ↔ glob ≠ "" ∧ pattern = ⟨glob, none⟩ := by
  constructor
  · intro made
    refine ⟨?_, ofText_eq_ok made⟩
    rintro rfl
    cases made
  · rintro ⟨nonempty, rfl⟩
    exact ofText_of_ne_empty nonempty

theorem ofLogEvent_eq_ok (made : ofLogEvent literal isPath = .ok pattern) :
    pattern = ⟨String.ofList (Glob.escape literal.toList), some literal⟩ := by
  unfold ofLogEvent at made
  cases inner : ofText (String.ofList (Glob.escape literal.toList)) isPath with
  | error e =>
    rw [inner] at made
    cases made
  | ok plain =>
    rw [inner] at made
    cases made
    rw [ofText_eq_ok inner]

theorem isMatch_iff_of_ofLogEvent (made : ofLogEvent literal isPath = .ok pattern) (text : String) :
    pattern.isMatch text ↔ text = literal := by
  rw [ofLogEvent_eq_ok made, isMatch_iff_means, String.toList_ofList, Glob.means_escape_iff, String.toList_inj]

theorem OfEvent.isMatch_iff (event : pattern.OfEvent) (text : String) :
    pattern.isMatch text ↔ text = pattern.sample := by
  obtain ⟨literal, _, made⟩ := event
  have sample : pattern.sample = literal := by
    rw [ofLogEvent_eq_ok made]
    rfl
  rw [isMatch_iff_of_ofLogEvent made, sample]

/-- An event is covered by the patterns that match its text.  The comparison of globs adds no pattern
to them: one with the glob of the event matches the same texts. -/
theorem OfEvent.covers_iff_isMatch_sample {other : Pattern} (event : other.OfEvent) (pattern : Pattern) :
    pattern.covers other ↔ pattern.isMatch other.sample := by
  rw [covers, Bool.or_eq_true, beq_iff_eq]
  constructor
  · rintro (sameGlob | matched)
    · have own : other.isMatch other.sample := (event.isMatch_iff _).mpr rfl
      rw [isMatch, regexSource, sameGlob]
      exact own
    · exact matched
  · exact .inr

theorem OfEvent.eq_of_covers {other : Pattern} (event : pattern.OfEvent)
    (otherEvent : other.OfEvent) (covered : pattern.covers other) : pattern = other := by
  have matched := (otherEvent.covers_iff_isMatch_sample pattern).mp covered
  have same : other.sample = pattern.sample := (event.isMatch_iff _).mp matched
  obtain ⟨literal, _, made⟩ := event
  obtain ⟨otherLiteral, _, otherMade⟩ := otherEvent
  rw [ofLogEvent_eq_ok made, ofLogEvent_eq_ok otherMade] at same ⊢
  have sameLiteral : otherLiteral = literal := same
  rw [sameLiteral]

/-- Coverage of an event is inclusion of languages: a pattern covers it exactly if it matches every
text that the event matches.  The pattern may come from a policy or from another event. -/
theorem covers_event_iff (pattern other : Pattern) (event : other.OfEvent) :
    pattern.covers other = true ↔
      ∀ text : String, other.isMatch text = true → pattern.isMatch text = true := by
  rw [event.covers_iff_isMatch_sample]
  constructor
  · intro matched text among
    rw [(event.isMatch_iff text).mp among]
    exact matched
  · intro included
    exact included other.sample ((event.isMatch_iff _).mpr rfl)

/-- A policy that spells the event with its backslash, one that spells it as a class, and one whose
class has no meaning. -/
theorem covers_event_iff_spellings :
    let event : Pattern := ⟨"/a\\*", some "/a*"⟩
    event.OfEvent ∧
      (∀ glob ∈ ["/a\\*", "/a[*]", "/**"], ∀ text : String, event.isMatch text = true →
        (⟨glob, none⟩ : Pattern).isMatch text = true) ∧
      ¬∀ text : String, event.isMatch text = true → (⟨"/a[z-a]", none⟩ : Pattern).isMatch text = true := by
  intro event
  have made : event.OfEvent := ⟨"/a*", true, rfl⟩
  refine ⟨made, fun glob member => (covers_event_iff ⟨glob, none⟩ event made).mp ?_, ?_⟩
  · revert glob
    decide +kernel
  · rw [← covers_event_iff ⟨"/a[z-a]", none⟩ event made]
    decide +kernel

theorem ofLogEvent_of_ne_empty (nonempty : literal ≠ "") :
    ofLogEvent literal false = .ok ⟨String.ofList (Glob.escape literal.toList), some literal⟩ := by
  have escaped : String.ofList (Glob.escape literal.toList) ≠ "" := by
    intro empty
    have none : Glob.escape literal.toList = Glob.escape [] := by
      simpa [Glob.escape] using congrArg String.toList empty
    exact nonempty (String.toList_eq_nil_iff.mp (Glob.escape_injective none))
  rw [ofLogEvent, ofText_of_ne_empty escaped]
  rfl

/-- Every text that is not empty has a pattern for its event.  The regular expression of the pattern
writes out the characters of the text, with a backslash before each sign.  It can be read, and neither
it nor the pattern takes any other text. -/
theorem ofLogEvent_isMatch_iff (literal : String) (nonempty : literal ≠ "") :
    ∃ pattern e, ofLogEvent literal false = .ok pattern ∧
      pattern.regexSource.toList =
        '^' :: literal.toList.flatMap (fun c => if Expression.isSign c then ['\\', c] else [c]) ++ ['$'] ∧
      Expression.ofText? pattern.regexSource.toList = some e ∧
      ∀ text : String, (e.Accepts none text.toList ↔ text = literal) ∧
        (pattern.isMatch text = true ↔ text = literal) := by
  have made := ofLogEvent_of_ne_empty nonempty
  refine ⟨_, .ofSeq (literal.toList.map fun c => .one (.single c)), made, ?_, ?_, fun text => ⟨?_, ?_⟩⟩
  · simp [regexSource, Glob.regex, Glob.ofText_escape, Glob.toList_regexBody_literals]
  · rw [regexSource, Glob.ofText?_regex, String.toList_ofList, Glob.ofText_escape, Glob.expression?_literals]
  · rw [Glob.accepts_literals_iff, String.toList_inj]
  · exact isMatch_iff_of_ofLogEvent made text

/-- A caret at the start, a variable, a choice, a class, runs, a comma, and the signs of regular
expressions. -/
theorem ofLogEvent_isMatch_iff_signs :
    let literal := "^@\x7bx\x7d\x7ba,b\x7d[!c]*?\\.+$|,"
    literal ≠ "" ∧ ∃ pattern e, ofLogEvent literal false = .ok pattern ∧
      pattern.regexSource =
        "^\\^@\\\x7bx\\\x7d\\\x7ba,b\\\x7d\\[!c\\]\\*\\?\\\\\\.\\+\\$\\|,$" ∧
      Expression.ofText? pattern.regexSource.toList = some e ∧
      ∀ text : String, (e.Accepts none text.toList ↔ text = literal) ∧
        (pattern.isMatch text = true ↔ text = literal) := by
  intro literal
  have nonempty : literal ≠ "" := by decide
  obtain ⟨pattern, e, made, source, read, matched⟩ := ofLogEvent_isMatch_iff literal nonempty
  refine ⟨nonempty, pattern, e, made, ?_, read, matched⟩
  rw [← String.toList_inj, source]
  decide +kernel

end ArmorPolicy.Pattern
