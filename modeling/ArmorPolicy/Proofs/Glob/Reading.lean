import ArmorPolicy.Proofs.Glob.Language
import ArmorPolicy.Proofs.Text.Lines

/-!
# Reading a glob finds its parts

Every text without an opening bracket spells exactly one list of tokens, and every list of tokens
has exactly one list of parts; the reader finds both.
-/

namespace ArmorPolicy.Glob

open List

variable {alternatives : List (List Glob)} {name rest : List Char} {found : List Glob}

/-! ## Tokens -/

theorem tokensFrom_skip (skip : Nat) (s : List Char) : tokensFrom skip s = tokensFrom 0 (s.drop skip) := by
  induction s generalizing skip with
  | nil => cases skip <;> simp [tokensFrom]
  | cons c rest ih =>
    cases skip with
    | zero => rfl
    | succ skip =>
      rw [tokensFrom, ih, drop_succ_cons]

theorem not_isNameChar_closeBrace : (Text.isAlphanumeric '}' || '}' == '_') = false := by decide

theorem variableName?_of_name (rest : List Char) (named : name ≠ []) (letters : ∀ c ∈ name, IsNameChar c) :
    variableName? ('{' :: name ++ '}' :: rest) = some name := by
  have taken : (name ++ '}' :: rest).takeWhile (fun c => Text.isAlphanumeric c || c == '_') =
      name := Text.takeWhile_append_of_stop letters not_isNameChar_closeBrace
  have nonempty : name.isEmpty = false := by simpa using named
  simp [variableName?, taken, nonempty]

theorem variableName?_eq_some {s : List Char} (found : variableName? s = some name) :
    name ≠ [] ∧ (∀ c ∈ name, IsNameChar c) ∧ ∃ rest, s = '{' :: name ++ '}' :: rest := by
  cases s with
  | nil => simp [variableName?] at found
  | cons c rest =>
    by_cases brace : c = '{'
    · subst brace
      simp only [variableName?] at found
      split at found
      next passes =>
        cases found
        simp only [Bool.and_eq_true, Bool.not_eq_true', isEmpty_eq_false_iff, beq_iff_eq] at passes
        refine ⟨passes.1, fun c member => ?_, ?_⟩
        · exact all_eq_true.mp all_takeWhile c member
        · obtain ⟨tail, shape⟩ := head?_eq_some_iff.mp passes.2
          have whole := prefix_iff_eq_append.mp
            ( takeWhile_prefix (l := rest) fun c => Text.isAlphanumeric c || c == '_')
          exact ⟨tail, by rw [cons_append, ← shape, whole]⟩
      · cases found
    · simp [variableName?, brace] at found

theorem startsVariable_iff {c : Char} :
    StartsVariable (c :: rest) ↔ c = '@' ∧ (variableName? rest).isSome := by
  constructor
  · rintro ⟨name, tail, named, letters, shape⟩
    obtain ⟨sign, behind⟩ := List.cons.inj shape
    rw [behind]
    exact ⟨sign, Option.isSome_of_mem (variableName?_of_name tail named letters)⟩
  · rintro ⟨sign, present⟩
    obtain ⟨name, found⟩ := Option.isSome_iff_exists.mp present
    obtain ⟨named, letters, tail, shape⟩ := variableName?_eq_some found
    exact ⟨name, tail, named, letters, by rw [sign, shape]; rfl⟩

theorem tokensFrom_variable (named : name ≠ []) (letters : ∀ c ∈ name, IsNameChar c) :
    tokensFrom 0 ('@' :: '{' :: name ++ '}' :: rest) =
      ('@' :: '{' :: name ++ ['}']).map literal ++ tokensFrom 0 rest := by
  have found := variableName?_of_name rest named letters
  have behind : ('{' :: name ++ '}' :: rest).drop (name.length + 2) = rest := by
    simp [drop_append]
  simp only [cons_append] at found behind ⊢
  rw [tokensFrom]
  simp only [found]
  rw [tokensFrom_skip, behind]
  simp

theorem tokensFrom_plain {c : Char} (noSign : c ∉ signs) (noVariable : ¬ StartsVariable (c :: rest)) :
    tokensFrom 0 (c :: rest) = literal c :: tokensFrom 0 rest := by
  simp only [signs, mem_cons, not_mem_nil, or_false, not_or] at noSign
  by_cases sign : c = '@'
  · subst sign
    cases found : variableName? rest with
    | none => simp [tokensFrom, found]
    | some name => exact absurd (startsVariable_iff.mpr ⟨rfl, by simp [found]⟩) noVariable
  · rw [tokensFrom] <;> simp_all

theorem tokensFrom_of_spells {s : List Char} {spelled : List Token} (spells : Spells s spelled) :
    tokensFrom 0 s = spelled := by
  induction spells with
  | nil => rfl
  | lastBackslash => rfl
  | escaped c _ ih => simp [tokensFrom, ih]
  | variableName name named letters _ ih => rw [tokensFrom_variable named letters, ih]
  | crossingRun _ ih => simp [tokensFrom, ih]
  | run single _ ih => simp [tokensFrom, single, ih]
  | one _ ih => simp [tokensFrom, ih]
  | openBrace _ ih => simp [tokensFrom, ih]
  | closeBrace _ ih => simp [tokensFrom, ih]
  | comma _ ih => simp [tokensFrom, ih]
  | plain c noSign noVariable _ ih => rw [tokensFrom_plain noSign noVariable, ih]

theorem exists_spells (s : List Char) (noClass : '[' ∉ s) : ∃ spelled, Spells s spelled := by
  induction length : s.length using Nat.strongRecOn generalizing s with
  | ind n ih =>
    subst length
    cases s with
    | nil => exact ⟨[], .nil⟩
    | cons c rest =>
      have shorter : ∀ t : List Char, t <:+ rest → ∃ spelled, Spells t spelled := by
        intro t within
        have small := within.length_le
        exact ih t.length (by simp; omega) t (fun member => noClass (.tail c (within.subset member))) rfl
      obtain ⟨spelled, spells⟩ := shorter rest suffix_rfl
      by_cases starts : StartsVariable (c :: rest)
      · obtain ⟨name, behind, named, letters, shape⟩ := starts
        have within : behind <:+ rest := by
          obtain ⟨_, rest⟩ := List.cons.inj shape
          exact ⟨'{' :: name ++ ['}'], by simp [rest]⟩
        obtain ⟨further, spells⟩ := shorter behind within
        rw [shape]
        exact ⟨_, .variableName name named letters spells⟩
      · by_cases sign : c ∈ signs
        · simp only [signs, mem_cons, not_mem_nil, or_false] at sign
          rcases sign with rfl | rfl | rfl | rfl | rfl | rfl | rfl
          · cases rest with
            | nil => exact ⟨_, .lastBackslash⟩
            | cons next behind =>
              obtain ⟨further, spells⟩ := shorter behind (suffix_cons next behind)
              exact ⟨_, .escaped next spells⟩
          · exact absurd (.head rest) noClass
          · by_cases twice : rest.head? = some '*'
            · obtain ⟨behind, rfl⟩ := head?_eq_some_iff.mp twice
              obtain ⟨further, spells⟩ := shorter behind (suffix_cons '*' behind)
              exact ⟨_, .crossingRun spells⟩
            · exact ⟨_, .run twice spells⟩
          · exact ⟨_, .one spells⟩
          · exact ⟨_, .openBrace spells⟩
          · exact ⟨_, .closeBrace spells⟩
          · exact ⟨_, .comma spells⟩
        · exact ⟨_, .plain c sign starts spells⟩

theorem tokens_eq (s : List Char) : tokens s = tokensFrom 0 (withoutCaret s) := by
  unfold tokens
  split
  next rest => rfl
  next noCaret => rw [withoutCaret.eq_2 s noCaret]

/-! ## Braces -/

variable {tokens : List Token}

theorem Alternatives.ne_nil (paired : Alternatives tokens alternatives) : alternatives ≠ [] := by
  cases paired <;> simp

theorem joined_append_singleton (before : List (List Glob)) (last further : List Glob) :
    joined (before ++ [last ++ further]) = joined (before ++ [last]) ++ further := by
  induction before with
  | nil => simp [joined]
  | cons alternative before ih =>
    cases before <;> simp_all [joined, List.intercalate]

theorem joined_append_nil (before : List (List Glob)) (last : List Glob) :
    joined (before ++ [last] ++ [[]]) = joined (before ++ [last]) ++ [.atom (.char ',')] := by
  induction before with
  | nil => simp [joined, List.intercalate]
  | cons alternative before ih =>
    cases before <;> simp_all [joined, List.intercalate]

namespace Frame

theorem abandon_push (frame : Frame) (g : Glob) : (frame.push g).abandon = frame.abandon ++ [g] := by
  have longer := joined_append_singleton frame.finished.reverse frame.current.reverse [g]
  simpa [abandon, alternatives, push, joined] using longer

theorem abandon_separate (frame : Frame) : frame.separate.abandon = frame.abandon ++ [.atom (.char ',')] := by
  have longer := joined_append_nil frame.finished.reverse frame.current.reverse
  simpa [abandon, alternatives, separate, joined] using longer

theorem close_eq_choice {frame : Frame} {first : List Glob} {others : List (List Glob)}
    (finished : frame.alternatives = first :: others) : frame.close = choice first others := by
  rw [close, finished]
  rfl

end Frame

namespace Reading

def parts (state : Reading) : List Glob :=
  state.outer.reverse ++ state.frames.reverse.flatMap Frame.abandon

theorem parts_push (state : Reading) (g : Glob) : (state.push g).parts = state.parts ++ [g] := by
  obtain ⟨frames, outer⟩ := state
  cases frames <;> simp [push, parts, Frame.abandon_push]

theorem parts_openBrace (state : Reading) :
    (state.read .openBrace).parts = state.parts ++ [.atom (.char '{')] := by
  simp [read, parts, Frame.abandon, Frame.alternatives, Frame.start]

theorem parts_comma (state : Reading) : (state.read .comma).parts = state.parts ++ [.atom (.char ',')] := by
  obtain ⟨frames, outer⟩ := state
  cases frames with
  | nil => exact parts_push _ _
  | cons frame frames => simp [read, parts, Frame.abandon_separate]

def put (state : Reading) : List (List Glob) → Reading
  | [] => state
  | [last] => last.foldl push state
  | first :: second :: others => ((first.foldl push state).read .comma).put (second :: others)

theorem put_cons (state : Reading) (g : Glob) (first : List Glob) (others : List (List Glob)) :
    state.put ((g :: first) :: others) = (state.push g).put (first :: others) := by
  cases others <;> rfl

theorem put_nil_cons (state : Reading) (nonempty : alternatives ≠ []) :
    state.put ([] :: alternatives) = (state.read .comma).put alternatives := by
  cases alternatives with
  | nil => exact absurd rfl nonempty
  | cons first others => rfl

theorem parts_pushes (state : Reading) (further : List Glob) :
    (further.foldl push state).parts = state.parts ++ further := by
  induction further generalizing state with
  | nil => simp
  | cons g further ih => rw [foldl_cons, ih, parts_push, append_assoc]; rfl

theorem parts_put (state : Reading) (alternatives : List (List Glob)) :
    (state.put alternatives).parts = state.parts ++ joined alternatives := by
  induction alternatives generalizing state with
  | nil => simp [put, joined]
  | cons first others ih =>
    cases others with
    | nil => simpa [put, joined] using parts_pushes state first
    | cons second others =>
      rw [put, ih, parts_comma, parts_pushes]
      simp [joined, List.intercalate]

theorem pushes_frame (frame : Frame) (frames : List Frame) (outer further : List Glob) :
    further.foldl push ⟨frame :: frames, outer⟩ =
      ⟨⟨frame.finished, further.reverse ++ frame.current⟩ :: frames, outer⟩ := by
  induction further generalizing frame with
  | nil => rfl
  | cons g further ih => simp [push, Frame.push, ih]

theorem pushes_outer (outer further : List Glob) :
    further.foldl push ⟨[], outer⟩ = ⟨[], further.reverse ++ outer⟩ := by
  induction further generalizing outer with
  | nil => rfl
  | cons g further ih => simp [push, ih]

theorem put_frame (frame : Frame) (frames : List Frame) (outer first : List Glob)
    (others : List (List Glob)) :
    ∃ filled : Frame, put ⟨frame :: frames, outer⟩ (first :: others) = ⟨filled :: frames, outer⟩ ∧
      filled.alternatives = frame.finished.reverse ++ (frame.current.reverse ++ first) :: others := by
  induction others generalizing frame first with
  | nil => exact ⟨_, pushes_frame frame frames outer first, by simp [Frame.alternatives]⟩
  | cons second others ih =>
    rw [put, pushes_frame]
    obtain ⟨filled, reached, written⟩ :=
      ih (Frame.separate ⟨frame.finished, first.reverse ++ frame.current⟩) second
    exact ⟨filled, reached, by simpa [Frame.separate] using written⟩

theorem frames_put (outer : List Glob) (alternatives : List (List Glob)) :
    (put ⟨[], outer⟩ alternatives).frames = [] := by
  induction alternatives generalizing outer with
  | nil => rfl
  | cons first others ih =>
    cases others with
    | nil => simp [put, pushes_outer]
    | cons second others =>
      rw [put, pushes_outer]
      exact ih _

theorem foldl_read_of_alternatives (paired : Alternatives tokens alternatives)
    (state : Reading) : tokens.foldl read state = state.put alternatives := by
  induction paired generalizing state with
  | nil => rfl
  | atom a _ ih => rw [foldl_cons, ih, put_cons]; rfl
  | comma rest ih => rw [foldl_cons, ih, put_nil_cons state rest.ne_nil]
  | @group inner tokens innerFirst first innerOthers others _ _ insideIh ih =>
    obtain ⟨filled, reached, written⟩ := put_frame Frame.start state.frames state.outer innerFirst innerOthers
    have closed : (inner.foldl read (state.read .openBrace)).read .closeBrace =
        state.push (choice innerFirst innerOthers) := by
      have sealed : filled.close = choice innerFirst innerOthers := Frame.close_eq_choice written
      rw [insideIh, read, reached, ← sealed]
      rfl
    rw [cons_append, foldl_cons, foldl_append, foldl_cons, closed, ih, put_cons]

theorem parts_of_unclosed (ends : Unclosed tokens found) (state : Reading) :
    (tokens.foldl read state).parts = state.parts ++ found := by
  induction ends generalizing state with
  | balanced paired => rw [foldl_read_of_alternatives paired, parts_put]
  | openBrace paired _ ih =>
    rw [foldl_append, foldl_read_of_alternatives paired, foldl_cons, ih, parts_openBrace, parts_put]
    simp

theorem parts_of_written (written : Written tokens found) (outer : List Glob) :
    (tokens.foldl read ⟨[], outer⟩).parts = outer.reverse ++ found := by
  induction written generalizing outer with
  | unclosed ends => simpa [parts] using parts_of_unclosed ends ⟨[], outer⟩
  | @closeBrace tokens rest alternatives found paired _ ih =>
    have outside := frames_put outer alternatives
    have kept := parts_put ⟨[], outer⟩ alternatives
    rw [foldl_append, foldl_read_of_alternatives paired, foldl_cons]
    revert outside kept
    generalize put ⟨[], outer⟩ alternatives = state
    intro outside kept
    obtain ⟨frames, reached⟩ := state
    simp only at outside
    subst outside
    simp only [read, push, ih]
    simp [parts] at kept
    simp [kept]

end Reading

theorem ofTokens_of_written (written : Written tokens found) : ofTokens tokens = ofSeq found := by
  have reached := Reading.parts_of_written written []
  exact congrArg ofSeq reached

theorem written_unique {other : List Glob} (written : Written tokens found)
    (again : Written tokens other) : found = other := by
  have reached := Reading.parts_of_written written []
  rw [Reading.parts_of_written again []] at reached
  exact reached.symm

theorem Written.exists_append (before : List Token)
    (extended : ∀ {tokens alternatives}, Alternatives tokens alternatives →
      ∃ longer, Alternatives (before ++ tokens) longer) (written : Written tokens found) :
    ∃ longer, Written (before ++ tokens) longer := by
  cases written with
  | unclosed ends =>
    cases ends with
    | balanced paired =>
      obtain ⟨longer, paired⟩ := extended paired
      exact ⟨_, .unclosed (.balanced paired)⟩
    | openBrace paired behind =>
      obtain ⟨longer, paired⟩ := extended paired
      rw [← append_assoc]
      exact ⟨_, .unclosed (.openBrace paired behind)⟩
  | closeBrace paired behind =>
    obtain ⟨longer, paired⟩ := extended paired
    rw [← append_assoc]
    exact ⟨_, .closeBrace paired behind⟩

theorem Alternatives.exists_cons (paired : Alternatives tokens alternatives) :
    ∃ first others, alternatives = first :: others ∧ Alternatives tokens (first :: others) := by
  obtain ⟨first, others, rfl⟩ := exists_cons_of_ne_nil paired.ne_nil
  exact ⟨first, others, rfl, paired⟩

theorem exists_written (tokens : List Token) : ∃ found, Written tokens found := by
  induction tokens with
  | nil => exact ⟨_, .unclosed (.balanced .nil)⟩
  | cons token tokens ih =>
    obtain ⟨found, written⟩ := ih
    cases token with
    | atom a =>
      refine Written.exists_append [.atom a] ?_ written
      intro tokens alternatives paired
      obtain ⟨first, others, rfl, paired⟩ := paired.exists_cons
      exact ⟨_, .atom a paired⟩
    | comma =>
      refine Written.exists_append [.comma] ?_ written
      intro tokens alternatives paired
      exact ⟨_, .comma paired⟩
    | closeBrace => exact ⟨_, Written.closeBrace .nil written⟩
    | openBrace =>
      cases written with
      | unclosed ends => exact ⟨_, .unclosed (Unclosed.openBrace .nil ends)⟩
      | @closeBrace inner rest alternatives parts inside behind =>
        obtain ⟨innerFirst, innerOthers, rfl, inside⟩ := inside.exists_cons
        have grouped : ∀ {tokens alternatives}, Alternatives tokens alternatives →
            ∃ longer, Alternatives (.openBrace :: inner ++ [.closeBrace] ++ tokens) longer := by
          intro tokens alternatives paired
          obtain ⟨first, others, rfl, paired⟩ := paired.exists_cons
          exact ⟨_, by simpa using Alternatives.group inside paired⟩
        simpa using Written.exists_append _ grouped behind

/-! ## What holds of every part -/

theorem mem_joined {g : Glob} (member : g ∈ joined alternatives) :
    g = .atom (.char ',') ∨ ∃ parts ∈ alternatives, g ∈ parts := by
  induction alternatives with
  | nil => simp [joined] at member
  | cons first others ih =>
    cases others with
    | nil => exact .inr ⟨first, by simp, by simpa [joined] using member⟩
    | cons second others =>
      have shape : joined (first :: second :: others) =
          first ++ .atom (.char ',') :: joined (second :: others) := by
        simp [joined, List.intercalate]
      rw [shape, mem_append, mem_cons] at member
      rcases member with inFirst | comma | inOthers
      · exact .inr ⟨first, by simp, inFirst⟩
      · exact .inl comma
      · rcases ih inOthers with comma | ⟨parts, among, inside⟩
        · exact .inl comma
        · exact .inr ⟨parts, .tail _ among, inside⟩

section Parts

variable {P : Glob → Prop}
  (ofChoice : ∀ first others, (∀ g ∈ first, P g) → (∀ parts ∈ others, ∀ g ∈ parts, P g) →
    P (choice first others))

include ofChoice

theorem Alternatives.forall_mem (paired : Alternatives tokens alternatives)
    (ofAtom : ∀ a, .atom a ∈ tokens → P (.atom a)) : ∀ parts ∈ alternatives, ∀ g ∈ parts, P g := by
  induction paired with
  | nil => simp
  | atom a _ ih =>
    have rest := ih fun b member => ofAtom b (.tail _ member)
    simp only [forall_mem_cons] at rest ⊢
    exact ⟨⟨ofAtom a (.head _), rest.1⟩, rest.2⟩
  | comma _ ih =>
    simp only [forall_mem_cons]
    exact ⟨by simp, ih fun b member => ofAtom b (.tail _ member)⟩
  | group _ _ insideIh ih =>
    have inside := insideIh fun b member => ofAtom b (by simp [member])
    have rest := ih fun b member => ofAtom b (by simp [member])
    simp only [forall_mem_cons] at inside rest ⊢
    exact ⟨⟨ofChoice _ _ inside.1 inside.2, rest.1⟩, rest.2⟩

variable (ofChar : ∀ c, P (.atom (.char c)))

include ofChar

theorem Alternatives.forall_mem_joined (paired : Alternatives tokens alternatives)
    (ofAtom : ∀ a, .atom a ∈ tokens → P (.atom a)) : ∀ g ∈ joined alternatives, P g := by
  intro g member
  rcases mem_joined member with rfl | ⟨parts, among, inside⟩
  · exact ofChar ','
  · exact paired.forall_mem ofChoice ofAtom parts among g inside

theorem Unclosed.forall_mem (ends : Unclosed tokens found)
    (ofAtom : ∀ a, .atom a ∈ tokens → P (.atom a)) : ∀ g ∈ found, P g := by
  induction ends with
  | balanced paired => exact paired.forall_mem_joined ofChoice ofChar ofAtom
  | openBrace paired _ ih =>
    simp only [forall_mem_append, forall_mem_cons]
    exact ⟨paired.forall_mem_joined ofChoice ofChar fun a member => ofAtom a (by simp [member]), ofChar '{',
      ih fun a member => ofAtom a (by simp [member])⟩

/-- What holds of characters and of the atoms among the tokens, and of a choice if it holds of all the
parts inside, holds of every part. -/
theorem Written.forall_mem (written : Written tokens found)
    (ofAtom : ∀ a, .atom a ∈ tokens → P (.atom a)) : ∀ g ∈ found, P g := by
  induction written with
  | unclosed ends => exact ends.forall_mem ofChoice ofChar ofAtom
  | closeBrace paired _ ih =>
    simp only [forall_mem_append, forall_mem_cons]
    exact ⟨paired.forall_mem_joined ofChoice ofChar fun a member => ofAtom a (by simp [member]), ofChar '}',
      ih fun a member => ofAtom a (by simp [member])⟩

end Parts

end ArmorPolicy.Glob
