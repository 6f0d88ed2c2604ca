import ArmorPolicy.Proofs.Rule.Dispatch

/-!
# Canonical lines that name a file

Feature sets and includes: what is read from a line is read again from its canonical form.
-/

namespace ArmorPolicy

open Checked List Option Text Line

variable {abi : Abi} {magic : Bool} {inclusion : Inclusion} {rest s : List Char} {base : RuleBase}
  {path : String}

/-! ## References to files -/

namespace Reference

/-- A path as it stands between brackets or quotation marks. -/
structure Enclosed (path : String) (magic : Bool) : Prop where
  nonempty : path ≠ ""
  closed : (if magic then '>' else '"') ∉ path.toList
  trimmed : magic = true → trim path.toList = path.toList

def enclosedText (path : String) (magic : Bool) : List Char :=
  if magic then '<' :: path.toList ++ ['>'] else '"' :: path.toList ++ ['"']

def formOf (path : String) (magic : Bool) : Form :=
  if magic then .magic path.toList else .quoted path.toList

theorem enclosed?_enclosedText (enclosed : Enclosed path magic) (rest : List Char) :
    enclosed? (enclosedText path magic ++ rest) = some (formOf path magic, rest) := by
  cases magic with
  | true =>
    have closed : '>' ∉ path.toList := enclosed.closed
    simp [enclosedText, enclosed?, formOf, upTo?_append closed]
  | false =>
    have closed : '"' ∉ path.toList := enclosed.closed
    simp [enclosedText, enclosed?, formOf, upTo?_append closed]

theorem startsSolid_enclosedText (path : String) (magic : Bool) (rest : List Char) :
    StartsSolid (enclosedText path magic ++ rest) := by
  cases magic with
  | true => exact ⟨'<', path.toList ++ ['>'] ++ rest, rfl, by decide⟩
  | false => exact ⟨'"', path.toList ++ ['"'] ++ rest, rfl, by decide⟩

theorem endsSolid_enclosedText (path : String) (magic : Bool) : EndsSolid (enclosedText path magic) := by
  cases magic with
  | true => exact ⟨'<' :: path.toList, '>', rfl, by decide⟩
  | false => exact ⟨'"' :: path.toList, '"', rfl, by decide⟩

theorem notMem_enclosedText (oneLine : '\n' ∉ path.toList) : '\n' ∉ enclosedText path magic := by
  cases magic <;> simp [enclosedText, oneLine]

/-- The path and its style as a rule has them: in brackets, blanks at its ends do not count. -/
def Form.stored : Form → String × Bool
  | .magic path => (String.ofList (trim path), true)
  | .quoted path | .bare path => (String.ofList path, false)

theorem stored_of_enclosed? {form : Form} (found : enclosed? s = some (form, rest))
    (nonempty : form.stored.1 ≠ "") :
    Enclosed form.stored.1 form.stored.2 ∧ form.stored.1.toList ⊆ s ∧ ∀ path, form ≠ .bare path := by
  unfold enclosed? at found
  split at found
  next tail =>
    obtain ⟨⟨path, behind⟩, cut, same⟩ := map_eq_some_iff.mp found
    obtain ⟨rfl, absent⟩ := upTo?_eq_some_iff.mp cut
    cases same
    have part := (trim_sublist path).subset
    refine ⟨⟨nonempty, ?_, fun _ => ?_⟩, fun c member => ?_, nofun⟩
    · simpa [Form.stored] using fun sign => absent (part sign)
    · simp [Form.stored, trim_trim]
    · rw [Form.stored, String.toList_ofList] at member
      simp [part member]
  next tail =>
    obtain ⟨⟨path, behind⟩, cut, same⟩ := map_eq_some_iff.mp found
    obtain ⟨rfl, absent⟩ := upTo?_eq_some_iff.mp cut
    cases same
    refine ⟨⟨nonempty, by simpa [Form.stored] using absent, nofun⟩, fun c member => ?_, nofun⟩
    rw [Form.stored, String.toList_ofList] at member
    simp [member]
  · cases found

theorem mem_ifExistsChoices {ifExists : Bool} (member : (ifExists, rest) ∈ ifExistsChoices s) :
    rest <:+ s := by
  unfold ifExistsChoices at member
  split at member
  next behind found =>
    obtain ⟨inner, outer, exists_⟩ := bind_eq_some_iff.mp found
    obtain ⟨start, blanks, word⟩ := bind_eq_some_iff.mp outer
    have tail : behind <:+ s := by
      rw [after?_eq_some_iff] at exists_
      have inside : behind <:+ inner := ⟨_, exists_.symm⟩
      exact inside.trans ((afterWord?_suffix word).trans (afterBlanks?_suffix blanks))
    simp only [mem_cons, Prod.mk.injEq, not_mem_nil, or_false] at member
    rcases member with ⟨_, rfl⟩ | ⟨_, rfl⟩
    · exact tail
    · exact suffix_refl _
  · obtain ⟨_, rfl⟩ := Prod.mk.inj (mem_singleton.mp member)
    exact suffix_refl _

variable {referenced? : List Char → Option (Form × String)} {comment : String}

theorem readParts?_eq_some {parts : Parts} (found : readParts? referenced? s = some (parts, comment)) :
    ∃ t, t <:+ s ∧ referenced? t = some (parts.form, comment) := by
  obtain ⟨⟨ifExists, t⟩, choice, success⟩ := exists_of_findSome?_eq_some found
  obtain ⟨⟨form, comment⟩, read, ⟨⟩⟩ := map_eq_some_iff.mp success
  exact ⟨t, mem_ifExistsChoices choice, read⟩

def lead (ifExists : Bool) : List Char := if ifExists then " if exists".toList else []

theorem readParts?_lead (ifExists : Bool)
    (found : referenced? (' ' :: (enclosedText path magic ++ rest)) = some (formOf path magic, comment)) :
    readParts? referenced? (lead ifExists ++ ' ' :: (enclosedText path magic ++ rest)) =
      some (⟨ifExists, formOf path magic⟩, comment) := by
  cases ifExists with
  | false =>
    have noIf : afterWord? "if" (enclosedText path magic ++ rest) = none := by cases magic <;> rfl
    have absent : ifExists? (' ' :: (enclosedText path magic ++ rest)) = none := by
      simp [ifExists?, afterBlanks?_space (startsSolid_enclosedText path magic rest), noIf]
    simp [readParts?, lead, ifExistsChoices, absent, found]
  | true =>
    have present : ifExists? (lead true ++ ' ' :: (enclosedText path magic ++ rest)) =
        some (' ' :: (enclosedText path magic ++ rest)) := rfl
    simp [readParts?, ifExistsChoices, present, found]

theorem stored_formOf (enclosed : Enclosed path magic) : (formOf path magic).stored = (path, magic) := by
  cases magic with
  | true => simp [formOf, Form.stored, enclosed.trimmed rfl]
  | false => simp [formOf, Form.stored]

end Reference

theorem suffix_skipSign (sign : Char) (s : List Char) : skipSign sign s <:+ s := by
  unfold skipSign
  split
  next c rest =>
    split
    · exact suffix_cons c rest
    · exact suffix_refl _
  · exact suffix_refl _

open Reference

namespace Rule

variable {rule : Rule} {line : List Char} {keyword : String} {kind : RuleKind}
  {referenced? : List Char → Option (Form × String)} {make : RuleBase → Parts → Checked RuleBody}

theorem readBy_reference_eq_ok (success : readBy (Reference.read? referenced? keyword) make line = some (.ok rule)) :
    ∃ parts t, t ⊆ line ∧ referenced? t = some (parts.form, rule.base.comment) ∧
      make rule.base parts = .ok rule.body ∧ rule.base.Stated ∧ rule.base.audit = false ∧
      rule.base.decision = .unstated := by
  obtain ⟨parts, readable, made⟩ := readBy_withoutModifiers_eq_ok success
  obtain ⟨s, behind, found⟩ := bind_eq_some_iff.mp readable
  obtain ⟨t, within, read⟩ := readParts?_eq_some found
  refine ⟨parts, t, fun c member => (trimStart_sublist line).subset ?_, read, made⟩
  exact (suffix_skipSign '#' _).subset ((suffix_of_after? behind).subset (within.subset member))

theorem restored_of_reference {ifExists : Bool} (audit : rule.base.audit = false)
    (decision : rule.base.decision = .unstated) (stated : rule.base.Stated)
    (comment : TrailingComment rule.base.comment) (isKind : rule.kind = kind)
    (reader : readAs? kind rule.canonical.toList =
      readBy (Reference.read? referenced? keyword) make rule.canonical.toList)
    (member : keyword ∈ kind.keywords) (unsigned : ∀ t, skipSign '#' (keyword.toList ++ t) = keyword.toList ++ t)
    (bodyText : rule.body.text.toList = keyword.toList ++ (lead ifExists ++ ' ' :: enclosedText path magic))
    (ends : EndsSolid (enclosedText path magic ++ kind.terminator.toList))
    (oneLine : '\n' ∉ line → '\n' ∉ path.toList) (found : referenced? (' ' :: (enclosedText path magic ++
      (kind.terminator.toList ++ rule.base.comment.toList))) = some (formOf path magic, rule.base.comment))
    (made : make rule.rewritten.base ⟨ifExists, formOf path magic⟩ = .ok rule.body) : rule.Restored line := by
  subst isKind
  have text : rule.statementText = keyword.toList ++ (lead ifExists ++ ' ' :: (enclosedText path magic ++
      (rule.kind.terminator.toList ++ rule.base.comment.toList))) := by
    simp [statementText, bodyText]
  have keyworded : rule.Keyworded line := by
    refine ⟨⟨fun _ => modifiers_eq_empty audit decision, stated, comment, ?_, fun inLine => ?_⟩,
      keyword, member, text ▸ prefix_append _ _⟩
    · simpa [bodyText] using ((ends.cons ' ').append (lead ifExists)).append keyword.toList
    · have plain : ∀ kind ∈ RuleKind.all, ∀ word ∈ kind.keywords, '\n' ∉ word.toList := by decide
      have plainLead : '\n' ∉ lead ifExists := by cases ifExists <;> decide
      simp [bodyText, plain _ (RuleKind.mem_all _) keyword member, plainLead, notMem_enclosedText (oneLine inLine)]
  refine keyworded.recovered_rewritten rfl reader (keyworded.shows.withoutModifiers_canonical keyworded.starts audit decision ?_) made
  rw [text, unsigned, after?_append, bind_some, readParts?_lead ifExists found]

end Rule

namespace Abi

theorem text_toList (abi : Abi) :
    abi.text.toList = "abi".toList ++ ' ' :: enclosedText abi.path abi.magic := by
  unfold text enclosedText
  cases abi.magic <;> simp

theorem make_eq_ok_iff :
    make base path magic = .ok abi ↔
      base.forbidModifiers .abi = .ok () ∧ path ≠ "" ∧ abi = ⟨path, magic⟩ := by
  rw [eq_comm (a := abi)]
  simp [make, check_bind_eq_ok, refuse, unless_eq_ok, pure, Except.pure]

theorem ofParts_eq_ok_iff {parts : Parts} {line : List Char} :
    ofParts base parts line = .ok abi ↔ parts.ifExists = false ∧ (∀ path, parts.form ≠ .bare path) ∧
      make base parts.form.stored.1 parts.form.stored.2 = .ok abi := by
  obtain ⟨ifExists, form⟩ := parts
  cases ifExists <;> cases form <;> simp [ofParts, Form.stored, refuse]

theorem enclosed_of_ofParts {parts : Parts} {line : List Char}
    (within : enclosed? s = some (parts.form, rest)) (success : ofParts base parts line = .ok abi) :
    Enclosed abi.path abi.magic ∧ base.forbidModifiers .abi = .ok () ∧ abi.path.toList ⊆ s := by
  obtain ⟨_, _, made⟩ := ofParts_eq_ok_iff.mp success
  obtain ⟨allowed, nonempty, rfl⟩ := make_eq_ok_iff.mp made
  obtain ⟨enclosed, inside, _⟩ := stored_of_enclosed? within nonempty
  exact ⟨enclosed, allowed, inside⟩

theorem ofParts_formOf (enclosed : Enclosed abi.path abi.magic)
    (allowed : base.forbidModifiers .abi = .ok ()) (line : List Char) :
    ofParts base ⟨false, formOf abi.path abi.magic⟩ line = .ok abi := by
  refine ofParts_eq_ok_iff.mpr ⟨rfl, by cases abi.magic <;> nofun, ?_⟩
  rw [stored_formOf enclosed]
  exact make_eq_ok_iff.mpr ⟨allowed, enclosed.nonempty, rfl⟩

end Abi

namespace Rule

variable {rule : Rule} {line : List Char}

theorem recovered_abi (success : readAs? .abi line = some (.ok rule)) : rule.Restored line := by
  have kind := kind_of_readAs? success
  simp only [readAs?, Abi.read?] at success
  obtain ⟨parts, s, part, read, made, stated, audit, decision⟩ := readBy_reference_eq_ok success
  obtain ⟨abi, made, body⟩ := map_eq_ok.mp made
  obtain ⟨⟨_, rest⟩, within, ending⟩ := bind_eq_some_iff.mp read
  obtain ⟨_, ending, ⟨⟩⟩ := map_eq_some_iff.mp ending
  obtain ⟨enclosed, allowed, inside⟩ := Abi.enclosed_of_ofParts within made
  have valid := trailingComment_of_commaEnding? ending
  have bodyText : rule.body.text.toList = "abi".toList ++ (lead false ++ ' ' :: enclosedText abi.path abi.magic) := by
    rw [← body]
    exact abi.text_toList
  refine restored_of_reference audit decision stated valid kind (readAs?.eq_1 _) (by decide) (fun _ => rfl)
    bodyText ⟨_, ',', rfl, by decide⟩ ?_ ?_ (map_eq_ok.mpr ⟨abi, Abi.ofParts_formOf enclosed allowed _, body⟩)
  · exact fun inLine newline => inLine (part ((trimStart_sublist s).subset (inside newline)))
  · simp [Abi.referenced?, trimStart_space, trimStart_of_startsSolid (startsSolid_enclosedText _ _ _),
      enclosed?_enclosedText enclosed, RuleKind.terminator, commaEnding?_of_trailingComment valid]

end Rule

namespace Inclusion

theorem text_toList (inclusion : Inclusion) :
    inclusion.text.toList = "include".toList ++
      (lead inclusion.ifExists ++ ' ' :: enclosedText inclusion.path inclusion.magic) := by
  unfold text lead enclosedText
  cases inclusion.ifExists <;> cases inclusion.magic <;> simp

theorem make_eq_ok_iff {ifExists : Bool} :
    make base path ifExists magic = .ok inclusion ↔
      base.forbidModifiers .inclusion = .ok () ∧ path ≠ "" ∧ inclusion = ⟨path, ifExists, magic⟩ := by
  rw [eq_comm (a := inclusion)]
  simp [make, check_bind_eq_ok, refuse, unless_eq_ok, pure, Except.pure]

theorem stored_of_bare? {form : Form} (found : bare? s = some (form, rest)) (nonempty : form.stored.1 ≠ "") :
    Enclosed form.stored.1 form.stored.2 ∧ ∃ path, form = .bare path := by
  obtain ⟨t, _, cut⟩ := bind_eq_some_iff.mp found
  split at cut
  · cases cut
  · cases cut
    refine ⟨⟨nonempty, fun mark => ?_, nofun⟩, _, rfl⟩
    rw [Form.stored, String.toList_ofList] at mark
    have plain := all_eq_true.mp all_takeWhile '"' ((trimEnd_sublist _).subset mark)
    cases plain

theorem ofParts_eq_ok_iff {parts : Parts} :
    ofParts base parts = .ok inclusion ↔
      (∀ path, parts.form = .bare path → path.any isBlank = false) ∧
        make base parts.form.stored.1 parts.ifExists parts.form.stored.2 = .ok inclusion := by
  obtain ⟨ifExists, form⟩ := parts
  cases form with
  | bare path =>
    simp only [ofParts, Form.stored, Form.bare.injEq, forall_eq']
    cases path.any isBlank <;> simp [refuse]
  | _ => simp [ofParts, Form.stored]

theorem enclosed_of_ofParts {parts : Parts}
    (within : enclosed? (trimStart s) = some (parts.form, rest) ∨ bare? s = some (parts.form, rest))
    (success : ofParts base parts = .ok inclusion) :
    Enclosed inclusion.path inclusion.magic ∧ base.forbidModifiers .inclusion = .ok () ∧
      inclusion.ifExists = parts.ifExists ∧ ('\n' ∉ s → '\n' ∉ inclusion.path.toList) := by
  obtain ⟨solid, made⟩ := ofParts_eq_ok_iff.mp success
  obtain ⟨allowed, nonempty, rfl⟩ := make_eq_ok_iff.mp made
  rcases within with within | within
  · obtain ⟨enclosed, inside, _⟩ := stored_of_enclosed? within nonempty
    exact ⟨enclosed, allowed, rfl, fun oneLine newline =>
      oneLine ((trimStart_sublist s).subset (inside newline))⟩
  · obtain ⟨enclosed, path, bare⟩ := stored_of_bare? within nonempty
    refine ⟨enclosed, allowed, rfl, fun _ newline => ?_⟩
    rw [bare, Form.stored, String.toList_ofList] at newline
    exact absurd (any_eq_false.mp (solid path bare) _ newline) (by decide)

theorem ofParts_formOf (enclosed : Enclosed inclusion.path inclusion.magic)
    (allowed : base.forbidModifiers .inclusion = .ok ()) :
    ofParts base ⟨inclusion.ifExists, formOf inclusion.path inclusion.magic⟩ = .ok inclusion := by
  refine ofParts_eq_ok_iff.mpr ⟨by cases inclusion.magic <;> nofun, ?_⟩
  rw [stored_formOf enclosed]
  exact make_eq_ok_iff.mpr ⟨allowed, enclosed.nonempty, rfl⟩

end Inclusion

namespace Rule

variable {rule : Rule} {line : List Char}

theorem recovered_inclusion (success : readAs? .inclusion line = some (.ok rule)) : rule.Restored line := by
  have kind := kind_of_readAs? success
  simp only [readAs?, Inclusion.read?] at success
  obtain ⟨parts, s, part, read, made, stated, audit, decision⟩ := readBy_reference_eq_ok success
  obtain ⟨inclusion, made, body⟩ := map_eq_ok.mp made
  obtain ⟨⟨_, rest⟩, within, ending⟩ := bind_eq_some_iff.mp read
  obtain ⟨_, ending, ⟨⟩⟩ := map_eq_some_iff.mp ending
  obtain ⟨enclosed, allowed, _, inside⟩ := Inclusion.enclosed_of_ofParts
    ((or_eq_some_iff.mp within).imp id And.right) made
  have valid := trailingComment_of_ending? ending
  have bodyText : rule.body.text.toList = "include".toList ++
      (lead inclusion.ifExists ++ ' ' :: enclosedText inclusion.path inclusion.magic) := by
    rw [← body]
    exact inclusion.text_toList
  refine restored_of_reference audit decision stated valid kind (readAs?.eq_8 _) (by decide) (fun _ => rfl)
    bodyText (by simpa [RuleKind.terminator] using endsSolid_enclosedText _ _) ?_ ?_
    (map_eq_ok.mpr ⟨inclusion, Inclusion.ofParts_formOf enclosed allowed, body⟩)
  · exact fun inLine => inside fun newline => inLine (part newline)
  · simp [Inclusion.referenced?, trimStart_space, trimStart_of_startsSolid (startsSolid_enclosedText _ _ _),
      enclosed?_enclosedText enclosed, RuleKind.terminator, ending?_of_trailingComment valid]

end Rule

end ArmorPolicy
