import ArmorPolicy.Pattern
import ArmorPolicy.Proofs.Expression
import ArmorPolicy.Proofs.Glob.Anchored

/-!
# The regular expression means what the glob means

The regular expression of a glob is read back, by a reader that knows nothing of globs, as the
expression of its parts; it is refused exactly if a class of the glob is meaningless, never where there
are no classes.  The expression accepts the texts that the glob matches.
-/

namespace ArmorPolicy

namespace Glob

open List
open Option (bind_some bind_eq_some_iff isSome_iff_exists isSome_map map_eq_some_iff map_some)
open Expression (Reader)
open Expression.Reader (scan_cons scan_append scan_escaped_member read_member pushes_group)

variable {c : Char} {s body inner left text : List Char} {a : Atom} {g : Glob} {e : Expression}
  {parts first : List Glob} {others : List (List Glob)} {tokens : List Token}

/-! ## The expression of a glob -/

/-- The characters of runs and of `?`. -/
def visible (crossing : Bool) : CharClass :=
  { negated := true
    ranges := if crossing then [⟨'\x00', '\x00'⟩] else [⟨'/', '/'⟩, ⟨'\x00', '\x00'⟩]
    combined := [] }

/-- Behind a slash at least one character, elsewhere any number of them. -/
def runExpression (cls : CharClass) : Expression :=
  .alt (.ofSeq [.ofSeq [.behind true '/', .seq (.one cls) (.many cls)]])
    (.ofSeq [.ofSeq [.behind false '/', .many cls]])

def Atom.expression? : Atom → Option Expression
  | .char c => some (.one (.single c))
  | .one => some (.one (visible false))
  | .run crossing => some (runExpression (visible crossing))
  | .oneOf inner => (CharClass.ofText? inner).map .one

/-- The expression of a glob; none if one of its classes is meaningless. -/
def expression? : Glob → Option Expression
  | .empty => some .empty
  | .atom a => a.expression?
  | .seq first second => first.expression?.bind fun e => second.expression?.map (.seq e)
  | .alt first second => first.expression?.bind fun e => second.expression?.map (.alt e)
  | .group inner => inner.expression?

/-! ## Atoms are read -/

/-- The reader finds the expression of a part in its text, wherever it stands. -/
def IsRead (g : Glob) : Prop :=
  ∀ reader : Reader, reader.mode = .text → reader.scan g.text = g.expression?.map reader.push

theorem isAlphanumeric_of_isRegexSpecial (special : isRegexSpecial c) : Text.isAlphanumeric c = false := by
  have noLetters : ∀ sign ∈ ['\\', '.', '+', '*', '?', '(', ')', '|', '[', ']', '{', '}', '^', '$'],
      Text.isAlphanumeric sign = false := by decide
  exact noLetters c (by simpa [isRegexSpecial, or_assoc] using special)

theorem isRead_char (c : Char) : IsRead (.atom (.char c)) := by
  rintro ⟨groups, outer, mode⟩ rfl
  by_cases special : isRegexSpecial c
  · have written : Glob.text (.atom (.char c)) = ['\\', c] := by
      simp [Glob.text, regexBody, Atom.regex, charRegex, special]
    have escape : Reader.read ⟨groups, outer, .text⟩ '\\' = some ⟨groups, outer, .escape⟩ := rfl
    have noLetter := isAlphanumeric_of_isRegexSpecial special
    rw [written, scan_cons, escape, bind_some, scan_cons, Reader.read, if_neg (by simp [noLetter])]
    rfl
  · have written : Glob.text (.atom (.char c)) = [c] := by
      simp [Glob.text, regexBody, Atom.regex, charRegex, special]
    rw [written, scan_cons, Reader.read, Reader.readText] <;> simp_all [isRegexSpecial]
    rfl

theorem isRead_one : IsRead (.atom .one) := by
  rintro ⟨groups, outer, mode⟩ rfl
  rfl

theorem isRead_run (crossing : Bool) : IsRead (.atom (.run crossing)) := by
  rintro ⟨groups, outer, mode⟩ rfl
  cases crossing <;> rfl

section Members

variable (groups : List Expression.Group) (outer : List Expression)

theorem scan_classRegex (found : classBody? s = some body) (chars : List ClassChar) :
    Reader.scan ⟨groups, outer, .members chars⟩ (classRegex body) =
      some ⟨groups, outer, .members ((classChars body).reverse ++ chars)⟩ := by
  fun_induction classBody? s generalizing body chars with
  | case1 => cases found
  | case2 c rest ih =>
    obtain ⟨inner, isBody, rfl⟩ := map_eq_some_iff.mp found
    rw [classRegex, classChars]
    split
    next letter =>
      have member := read_member groups outer (alphanumeric_ne letter rfl) (alphanumeric_ne letter rfl)
        (alphanumeric_ne letter rfl) chars
      rw [scan_cons, member, bind_some, ih isBody]
      simp [letter]
    next noLetter =>
      rw [Bool.not_eq_true] at noLetter
      rw [scan_escaped_member groups outer noLetter, ih isBody]
      simp [noLetter]
  | case3 => cases found
  | case4 =>
    cases found
    rfl
  | case5 c rest noEscape notLast noClosing ih =>
    obtain ⟨inner, isBody, rfl⟩ := map_eq_some_iff.mp found
    have noBackslash := ne_backslash noEscape notLast
    by_cases opening : c = '['
    · subst opening
      rw [classRegex, classChars, scan_escaped_member groups outer rfl, ih isBody]
      simp
    · have noPair : ∀ next behind, c = '\\' → inner = next :: behind → False :=
        fun _ _ same => absurd same noBackslash
      rw [classRegex.eq_4 c inner noPair opening, classChars.eq_4 c inner noPair opening, scan_cons,
        read_member groups outer noBackslash opening noClosing, bind_some, ih isBody]
      simp

theorem classChars_eq_nil (isNil : classChars s = []) : s = [] := by
  unfold classChars at isNil
  split at isNil <;> simp_all

theorem classChars_eq_caret (caret : classChars s = [⟨'^', false⟩]) : s = ['^'] := by
  unfold classChars at caret
  split at caret
  · cases caret
  next c rest =>
    simp only [cons.injEq, ClassChar.mk.injEq, Bool.not_eq_false'] at caret
    obtain ⟨⟨rfl, letter⟩, _⟩ := caret
    cases letter
  · simp at caret
  next c rest _ _ =>
    simp only [cons.injEq, ClassChar.mk.injEq, and_true] at caret
    rw [caret.1, classChars_eq_nil caret.2]

/-- A class is read to its end, and is neither empty nor a lone `^`, so that the next closing bracket
closes it. -/
theorem scan_class (found : classInner? s = some inner) :
    Reader.scan ⟨groups, outer, .members []⟩ (classRegex inner) =
        some ⟨groups, outer, .members (classChars inner).reverse⟩ ∧
      classChars inner ≠ [] ∧ classChars inner ≠ [⟨'^', false⟩] := by
  unfold classInner? at found
  split at found
  next rest =>
    obtain ⟨body, isBody, rfl⟩ := map_eq_some_iff.mp found
    refine ⟨?_, by simp [classChars], by simp [classChars]⟩
    exact (scan_classRegex groups outer isBody [⟨']', false⟩, ⟨'^', false⟩]).trans (by simp [classChars])
  next rest noBracket =>
    obtain ⟨body, isBody, rfl⟩ := map_eq_some_iff.mp found
    have start : rest.head? ≠ some ']' := fun bracket => by
      obtain ⟨behind, rfl⟩ := head?_eq_some_iff.mp bracket
      exact noBracket behind rfl
    have nonempty : body ≠ [] := fun isNil => (head?_of_classBody? isBody start).1 (by rw [isNil]; rfl)
    refine ⟨?_, by simp [classChars], fun caret => nonempty (by simpa using classChars_eq_caret caret)⟩
    exact (scan_classRegex groups outer isBody [⟨'^', false⟩]).trans (by simp [classChars])
  next rest =>
    obtain ⟨body, isBody, rfl⟩ := map_eq_some_iff.mp found
    refine ⟨?_, by simp [classChars], by simp [classChars]⟩
    exact (scan_classRegex groups outer isBody [⟨']', false⟩]).trans (by simp [classChars])
  next _ noCaret noBracket =>
    have start : s.head? ≠ some ']' := fun bracket => by
      obtain ⟨behind, shape⟩ := head?_eq_some_iff.mp bracket
      exact noBracket behind shape
    obtain ⟨nonempty, same⟩ := head?_of_classBody? found start
    refine ⟨?_, fun isNil => nonempty (by rw [classChars_eq_nil isNil]; rfl), fun caret => ?_⟩
    · simpa using scan_classRegex groups outer found []
    · have starts : (classRegex inner).head? = some '^' := by rw [classChars_eq_caret caret]; rfl
      obtain ⟨behind, shape⟩ := head?_eq_some_iff.mp (same starts)
      exact noCaret behind shape

end Members

theorem isRead_oneOf (found : classInner? s = some inner) : IsRead (.atom (.oneOf inner)) := by
  rintro ⟨groups, outer, mode⟩ rfl
  obtain ⟨read, nonempty, noCaret⟩ := scan_class groups outer found
  have opened : Reader.read ⟨groups, outer, .text⟩ '[' = some ⟨groups, outer, .members []⟩ := rfl
  have closed : Reader.read ⟨groups, outer, .members (classChars inner).reverse⟩ ']' =
      (CharClass.ofText? inner).map fun cls => Reader.push ⟨groups, outer, .text⟩ (.one cls) := by
    have inside : ¬((classChars inner).reverse = [] ∨ (classChars inner).reverse = [⟨'^', false⟩]) := by
      simpa [reverse_eq_iff] using ⟨nonempty, noCaret⟩
    simp only [Reader.read, Reader.readMember, if_neg inside, reverse_reverse, CharClass.ofText?]
    rfl
  have written : Glob.text (.atom (.oneOf inner)) = '[' :: (classRegex inner ++ [']']) := by
    simp [Glob.text, regexBody, Atom.regex]
  rw [written, scan_cons, opened, bind_some, scan_append, read, bind_some,
    scan_cons, closed, expression?, Atom.expression?]
  cases CharClass.ofText? inner <;> rfl

/-! ## Parts and choices are read -/

theorem scan_parts (areRead : ∀ g ∈ parts, IsRead g) (reader : Reader) (outside : reader.mode = .text) :
    reader.scan (parts.flatMap Glob.text) =
      (parts.mapM expression?).map fun es => es.foldl Reader.push reader := by
  induction parts generalizing reader with
  | nil => rfl
  | cons g parts ih =>
    rw [forall_mem_cons] at areRead
    rw [flatMap_cons, scan_append, areRead.1 reader outside, mapM_cons]
    cases g.expression? with
    | none => rfl
    | some e =>
      simp only [map_some, bind_some, ih areRead.2 (reader.push e) (reader.mode_push e)]
      cases parts.mapM expression? <;> rfl

/-- The expressions of the parts of several alternatives. -/
def expressions? (alternatives : List (List Glob)) : Option (List (List Expression)) :=
  alternatives.mapM fun parts => parts.mapM expression?

theorem expressions?_cons (first : List Glob) (others : List (List Glob)) :
    expressions? (first :: others) =
      (first.mapM expression?).bind fun es => (expressions? others).map (es :: ·) := by
  rw [expressions?, mapM_cons]
  cases first.mapM expression? with
  | none => rfl
  | some es => simp [expressions?, Option.map_eq_bind, Function.comp_def]

theorem scan_alternatives (areRead : ∀ parts ∈ first :: others, ∀ g ∈ parts, IsRead g) (group : Expression.Group)
    (groups : List Expression.Group) (outer : List Expression) :
    Reader.scan ⟨group :: groups, outer, .text⟩ (textOf true (first :: others)) =
      (expressions? (first :: others)).map fun alternatives =>
        ⟨group.fill alternatives :: groups, outer, .text⟩ := by
  induction others generalizing first group with
  | nil =>
    have read := scan_parts (areRead first (.head _)) ⟨group :: groups, outer, .text⟩ rfl
    have written : textOf true [first] = first.flatMap Glob.text := by simp [textOf, List.intercalate]
    rw [written, read, expressions?_cons]
    cases first.mapM expression? with
    | none => rfl
    | some es => simp [expressions?, pushes_group, Expression.Group.fill]
  | cons second others ih =>
    have read := scan_parts (areRead first (.head _)) ⟨group :: groups, outer, .text⟩ rfl
    rw [textOf_separate true first (by simp), scan_append, read, expressions?_cons]
    cases first.mapM expression? with
    | none => rfl
    | some es =>
      have separated := ih (fun parts member => areRead parts (.tail _ member))
        (Expression.Group.separate { group with current := es.reverse ++ group.current })
      have behindBar : Reader.scan ⟨{ group with current := es.reverse ++ group.current } :: groups, outer, .text⟩
          (between true ++ textOf true (second :: others)) = _ := separated
      rw [map_some, bind_some, pushes_group, behindBar, expressions?_cons second others]
      cases second.mapM expression? with
      | none => rfl
      | some further => cases expressions? others <;> rfl

theorem expression?_ofSeq (parts : List Glob) :
    (ofSeq parts).expression? = (parts.mapM expression?).map .ofSeq := by
  induction parts with
  | nil => rfl
  | cons g parts ih =>
    rw [ofSeq, expression?, ih, mapM_cons]
    cases g.expression? with
    | none => rfl
    | some e => cases parts.mapM expression? <;> rfl

theorem expression?_choice (first : List Glob) (others : List (List Glob)) :
    (choice first others).expression? = (expressions? (first :: others)).map .ofChoice := by
  rw [choice, expression?]
  induction others generalizing first with
  | nil =>
    rw [map_nil, ofAlternatives, expression?_ofSeq, expressions?_cons]
    cases first.mapM expression? <;> rfl
  | cons second others ih =>
    rw [map_cons, ofAlternatives, expression?, ih, expression?_ofSeq, expressions?_cons first,
      expressions?_cons second]
    cases first.mapM expression? with
    | none => rfl
    | some es =>
      cases second.mapM expression? with
      | none => rfl
      | some further => cases expressions? others <;> rfl

theorem isRead_choice (first : List Glob) (others : List (List Glob)) (areRead : ∀ g ∈ first, IsRead g)
    (othersRead : ∀ parts ∈ others, ∀ g ∈ parts, IsRead g) : IsRead (choice first others) := by
  rintro ⟨groups, outer, mode⟩ rfl
  have written : (choice first others).text = '(' :: (textOf true (first :: others) ++ [')']) := by
    rw [← text_ofAlternatives]
    simp [choice, Glob.text, regexBody]
  have opened : Reader.read ⟨groups, outer, .text⟩ '(' = some ⟨.start :: groups, outer, .text⟩ := rfl
  rw [written, scan_cons, opened, bind_some, scan_append,
    scan_alternatives (forall_mem_cons.mpr ⟨areRead, othersRead⟩), expression?_choice, expressions?_cons]
  cases first.mapM expression? with
  | none => rfl
  | some es =>
    cases expressions? others with
    | none => rfl
    | some further =>
      have alternatives := Expression.Group.alternatives_fill .start es further
      simp only [map_some, bind_some]
      rw [show Expression.ofChoice (es :: further) = _ from congrArg Expression.ofChoice alternatives.symm]
      rfl

/-- Between its anchors, the regular expression of a glob is read as the expression of the glob. -/
theorem ofText?_regex (s : List Char) : Expression.ofText? (ofText s).regex.toList = (ofText s).expression? := by
  obtain ⟨parts, written⟩ := exists_written (tokens s)
  have areRead : ∀ g ∈ parts, IsRead g := by
    refine written.forall_mem isRead_choice isRead_char fun a member => ?_
    cases a with
    | char c => exact isRead_char c
    | one => exact isRead_one
    | run crossing => exact isRead_run crossing
    | oneOf inner =>
      rw [tokens_eq] at member
      obtain ⟨text, found⟩ := isRead_of_mem_tokensFrom member inner rfl
      exact isRead_oneOf found
  have anchored : (ofText s).regex.toList = '^' :: (parts.flatMap Glob.text ++ ['$']) := by
    rw [ofText, ofTokens_of_written written, ← text_ofSeq]
    simp [regex, Glob.text]
  rw [anchored, Expression.ofText?, if_pos (by simp), dropLast_concat, scan_parts areRead .start rfl, ofText,
    ofTokens_of_written written, expression?_ofSeq]
  cases parts.mapM expression? with
  | none => rfl
  | some es => simp [Reader.start, Reader.pushes_outer, Reader.finish?]

/-! ## What the expression accepts -/

theorem CharRange.contains_single (c d : Char) : (⟨d, d⟩ : CharRange).contains c = (c == d) := by
  rw [contains, Bool.eq_iff_iff, Bool.and_eq_true, decide_eq_true_iff, decide_eq_true_iff, beq_iff_eq]
  constructor
  · rintro ⟨least, most⟩
    exact Char.le_antisymm most least
  · rintro rfl
    exact ⟨Char.le_refl _, Char.le_refl _⟩

theorem contains_single (c d : Char) : (CharClass.single d).contains c ↔ c = d := by
  simp [CharClass.single, CharClass.contains, CharClass.inRanges, CharRange.contains_single]

theorem contains_visible (crossing : Bool) (c : Char) :
    (visible crossing).contains c ↔ c ≠ '\x00' ∧ (crossing = false → c ≠ '/') := by
  cases crossing <;>
    simp [visible, CharClass.contains, CharClass.inRanges, CharRange.contains_single, and_comm]

theorem accepts_runExpression_iff (cls : CharClass) (before : Option Char) (text : List Char) :
    (runExpression cls).Accepts before text ↔
      (∀ c ∈ text, cls.contains c) ∧ (before = some '/' → text ≠ []) := by
  by_cases slash : before = some '/'
  · cases text <;> simp [runExpression, Expression.ofSeq, Expression.Accepts, slash]
  · simp [runExpression, Expression.ofSeq, Expression.Accepts, slash]

theorem accepts_iff_matches_atom (found : a.expression? = some e) (before : Option Char) (text : List Char) :
    e.Accepts before text ↔ Matches before (.atom a) text := by
  cases a with
  | char d =>
    cases found
    constructor
    · rintro ⟨c, rfl, same⟩
      obtain rfl := (contains_single c d).mp same
      exact .char c
    · rintro ⟨⟩
      exact ⟨d, rfl, (contains_single d d).mpr rfl⟩
  | one =>
    cases found
    constructor
    · rintro ⟨c, rfl, member⟩
      obtain ⟨notNul, notSlash⟩ := (contains_visible false c).mp member
      exact .one c (notSlash rfl) notNul
    · intro matched
      cases matched with
      | one c notSlash notNul => exact ⟨c, rfl, (contains_visible false c).mpr ⟨notNul, fun _ => notSlash⟩⟩
  | run crossing =>
    cases found
    rw [accepts_runExpression_iff]
    simp only [contains_visible]
    constructor
    · rintro ⟨allowed, behindSlash⟩
      exact .run crossing text allowed behindSlash
    · intro matched
      cases matched with
      | run _ _ allowed behindSlash => exact ⟨allowed, behindSlash⟩
  | oneOf inner =>
    obtain ⟨cls, meaning, rfl⟩ := map_eq_some_iff.mp found
    constructor
    · rintro ⟨c, rfl, member⟩
      exact .oneOf inner cls c meaning member
    · intro matched
      cases matched with
      | oneOf _ other c again member =>
        obtain rfl := Option.some.inj (meaning.symm.trans again)
        exact ⟨c, rfl, member⟩

/-- The expression of a part accepts what the part matches. -/
theorem accepts_iff_matches (found : g.expression? = some e) (before : Option Char) (text : List Char) :
    e.Accepts before text ↔ Matches before g text := by
  induction g generalizing e before text with
  | empty =>
    cases found
    constructor
    · rintro rfl
      exact .empty
    · rintro ⟨⟩
      rfl
  | atom a => exact accepts_iff_matches_atom found before text
  | seq first second ihFirst ihSecond =>
    obtain ⟨start, foundFirst, behind⟩ := bind_eq_some_iff.mp found
    obtain ⟨rest, foundSecond, rfl⟩ := map_eq_some_iff.mp behind
    simp only [Expression.Accepts, ihFirst foundFirst, ihSecond foundSecond]
    constructor
    · rintro ⟨_, _, rfl, matched, behind⟩
      exact .seq matched behind
    · intro matched
      cases matched with
      | seq start rest => exact ⟨_, _, rfl, start, rest⟩
  | alt first second ihFirst ihSecond =>
    obtain ⟨start, foundFirst, behind⟩ := bind_eq_some_iff.mp found
    obtain ⟨rest, foundSecond, rfl⟩ := map_eq_some_iff.mp behind
    rw [Expression.Accepts, ihFirst foundFirst, ihSecond foundSecond]
    constructor
    · rintro (matched | matched)
      · exact .altFirst matched
      · exact .altSecond matched
    · intro matched
      cases matched with
      | altFirst start => exact .inl start
      | altSecond start => exact .inr start
  | group inner ih =>
    rw [ih found before text]
    constructor
    · exact .group
    · intro matched
      cases matched with
      | group inside => exact inside

/-- The glob has an expression, which accepts the text. -/
def Means (g : Glob) (text : List Char) : Prop := ∃ e, g.expression? = some e ∧ e.Accepts none text

/-! ## Globs without classes -/

theorem isSome_mapM {α β : Type} {f : α → Option β} {l : List α} (all : ∀ a ∈ l, (f a).isSome) :
    (l.mapM f).isSome := by
  induction l with
  | nil => rfl
  | cons a l ih =>
    rw [forall_mem_cons] at all
    obtain ⟨b, found⟩ := isSome_iff_exists.mp all.1
    obtain ⟨others, rest⟩ := isSome_iff_exists.mp (ih all.2)
    simp [mapM_cons, found, rest]

theorem isSome_expression?_ofSeq (all : ∀ g ∈ parts, g.expression?.isSome) : (ofSeq parts).expression?.isSome := by
  rw [expression?_ofSeq, isSome_map]
  exact isSome_mapM all

theorem isSome_expression?_choice (first : List Glob) (others : List (List Glob))
    (all : ∀ g ∈ first, g.expression?.isSome) (further : ∀ parts ∈ others, ∀ g ∈ parts, g.expression?.isSome) :
    (choice first others).expression?.isSome := by
  rw [expression?_choice, isSome_map]
  exact isSome_mapM fun parts member => isSome_mapM (forall_mem_cons.mpr ⟨all, further⟩ parts member)

theorem Spells.oneOf_notMem {s : List Char} {spelled : List Token} (spells : Spells s spelled)
    (inner : List Char) : Token.atom (.oneOf inner) ∉ spelled := by
  induction spells <;> simp_all [literal]

theorem Written.isSome_expression? (written : Written tokens parts)
    (noClass : ∀ inner, Token.atom (.oneOf inner) ∉ tokens) : ∀ g ∈ parts, g.expression?.isSome := by
  refine written.forall_mem isSome_expression?_choice (fun c => rfl) fun a member => ?_
  cases a with
  | oneOf inner => exact absurd member (noClass inner)
  | char | one | run => rfl

/-- A glob without classes has one list of parts, and the reader finds it. -/
theorem exists_denotes {s : List Char} (noClass : '[' ∉ s) :
    ∃ parts, Denotes s parts ∧ ofText s = ofSeq parts ∧ (ofSeq parts).expression?.isSome ∧
      ∀ other, Denotes s other → other = parts := by
  have absent : '[' ∉ withoutCaret s := by
    intro member
    unfold withoutCaret at member
    split at member
    next rest => exact noClass (.tail _ member)
    · exact noClass member
  obtain ⟨spelled, spells⟩ := exists_spells _ absent
  obtain ⟨parts, written⟩ := exists_written spelled
  have read : Glob.tokens s = spelled := by rw [tokens_eq, tokensFrom_of_spells spells]
  refine ⟨parts, ⟨spelled, spells, written⟩, ?_, ?_, ?_⟩
  · rw [ofText, read, ofTokens_of_written written]
  · exact isSome_expression?_ofSeq (written.isSome_expression? spells.oneOf_notMem)
  · rintro other ⟨again, spellsAgain, writtenAgain⟩
    obtain rfl : spelled = again := by
      rw [← tokensFrom_of_spells spells, tokensFrom_of_spells spellsAgain]
    exact written_unique writtenAgain written

end Glob

namespace Pattern

/-- The regular expression of a pattern accepts the texts that the pattern matches. -/
theorem isMatch_iff_accepts (pattern : Pattern) (text : String) :
    pattern.isMatch text ↔
      ∃ e, Expression.ofText? pattern.regexSource.toList = some e ∧ e.Accepts none text.toList := by
  unfold isMatch
  cases Expression.ofText? pattern.regexSource.toList with
  | none => simp
  | some e => simp [Expression.isMatch_iff]

theorem isMatch_iff_means (pattern : Pattern) (text : String) :
    pattern.isMatch text ↔ (Glob.ofText pattern.glob.toList).Means text.toList := by
  rw [isMatch_iff_accepts, regexSource, Glob.ofText?_regex, Glob.Means]

theorem ofText_of_ne_empty {glob : String} (nonempty : glob ≠ "") : ofText glob false = .ok ⟨glob, none⟩ := by
  cases shape : glob.toList with
  | nil => exact absurd (String.toList_eq_nil_iff.mp shape) nonempty
  | cons c rest => simp [ofText, shape]

/-- The regular expression of a pattern without classes can be read.  It accepts exactly the texts of the
glob, and the pattern matches these. -/
theorem isMatch_iff_inLanguage (glob : String) (nonempty : glob ≠ "") (noClass : '[' ∉ glob.toList) :
    ∃ pattern e, ofText glob false = .ok pattern ∧
      Expression.ofText? pattern.regexSource.toList = some e ∧ (∃ parts, Glob.Denotes glob.toList parts ∧
        ∀ other, Glob.Denotes glob.toList other → other = parts) ∧ ∀ text : String,
        (e.Accepts none text.toList ↔ Glob.InLanguage glob.toList text.toList) ∧
        (pattern.isMatch text = true ↔ Glob.InLanguage glob.toList text.toList) := by
  obtain ⟨parts, denotes, read, meaning, unique⟩ := Glob.exists_denotes noClass
  obtain ⟨e, found⟩ := Option.isSome_iff_exists.mp meaning
  have source : Expression.ofText? (regexSource ⟨glob, none⟩).toList = some e := by
    rw [regexSource, Glob.ofText?_regex, read, found]
  have accepts : ∀ text : String,
      e.Accepts none text.toList ↔ Glob.InLanguage glob.toList text.toList := by
    intro text
    rw [Glob.accepts_iff_matches found]
    constructor
    · intro matched
      exact ⟨parts, denotes, matched⟩
    · rintro ⟨other, denotesOther, matched⟩
      rwa [unique other denotesOther] at matched
  refine ⟨⟨glob, none⟩, e, ofText_of_ne_empty nonempty, source, ⟨parts, denotes, unique⟩, fun text => ⟨accepts text, ?_⟩⟩
  rw [isMatch_iff_accepts, source, ← accepts]
  simp

theorem isMatch_iff_inLanguage_nested :
    "/\x7ba,b\x7bc,\x7d*\x7d/**," ≠ "" ∧ '[' ∉ "/\x7ba,b\x7bc,\x7d*\x7d/**,".toList ∧
      ∃ pattern e, ofText "/\x7ba,b\x7bc,\x7d*\x7d/**," false = .ok pattern ∧
        Expression.ofText? pattern.regexSource.toList = some e ∧
        (∃ parts, Glob.Denotes "/\x7ba,b\x7bc,\x7d*\x7d/**,".toList parts ∧
          ∀ other, Glob.Denotes "/\x7ba,b\x7bc,\x7d*\x7d/**,".toList other → other = parts) ∧
        ∀ text : String,
          (e.Accepts none text.toList ↔ Glob.InLanguage "/\x7ba,b\x7bc,\x7d*\x7d/**,".toList text.toList) ∧
          (pattern.isMatch text = true ↔ Glob.InLanguage "/\x7ba,b\x7bc,\x7d*\x7d/**,".toList text.toList) :=
  ⟨by decide, by decide, isMatch_iff_inLanguage _ (by decide) (by decide)⟩

end Pattern

end ArmorPolicy
