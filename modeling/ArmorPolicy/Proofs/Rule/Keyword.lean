import ArmorPolicy.Proofs.Rule.Dispatch

/-!
# Canonical lines of rules with keywords

Booleans, network access and freeform statements: what is read from a line is read again from its
canonical form.
-/

namespace ArmorPolicy

open Checked List Option Text Line

/-! ## Booleans -/

namespace BooleanSetting

/-- A sign, a word, and a brace before or behind it where there is one. -/
def IsName (name : List Char) : Prop :=
  ∃ opening word closing, name = '$' :: (opening ++ word ++ closing) ∧ (opening = [] ∨ opening = ['{']) ∧
    word ≠ [] ∧ (∀ c ∈ word, isWord c = true) ∧ (closing = [] ∨ closing = ['}'])

theorem IsName.oneLine {name : List Char} (valid : IsName name) : '\n' ∉ name := by
  obtain ⟨opening, word, closing, rfl, openBrace, _, all, closeBrace⟩ := valid
  have plain : '\n' ∉ word := fun newline => absurd (all '\n' newline) (by decide)
  rcases openBrace with rfl | rfl <;> rcases closeBrace with rfl | rfl <;> simp [plain]

theorem isName_of_cut {opening t name rest : List Char} (braces : opening = [] ∨ opening = ['{'])
    (cut : (match t.takeWhile isWord with
      | [] => none
      | word =>
        if (t.dropWhile isWord).head? = some '}' then
          some ('$' :: opening ++ word ++ ['}'], (t.dropWhile isWord).drop 1)
        else some ('$' :: opening ++ word, t.dropWhile isWord)) = some (name, rest)) :
    IsName name := by
  have word : ∀ c ∈ t.takeWhile isWord, isWord c := fun c member =>
    all_eq_true.mp all_takeWhile c member
  split at cut
  · cases cut
  next nonempty =>
    split at cut
    · cases cut
      exact ⟨opening, _, ['}'], by simp, braces, nonempty, word, .inr rfl⟩
    · cases cut
      exact ⟨opening, _, [], by simp, braces, nonempty, word, .inl rfl⟩

theorem isName_of_name? {s name rest : List Char} (found : name? s = some (name, rest)) : IsName name := by
  obtain ⟨t, _, cut⟩ := bind_eq_some_iff.mp found
  by_cases brace : t.head? = some '{'
  · simp only [if_pos brace] at cut
    exact isName_of_cut (.inr rfl) cut
  · simp only [if_neg brace] at cut
    exact isName_of_cut (.inl rfl) cut

theorem name?_append {name : List Char} (valid : IsName name) (rest : List Char) :
    name? (name ++ ' ' :: rest) = some (name, ' ' :: rest) := by
  obtain ⟨opening, word, closing, rfl, openBrace, nonempty, all, closeBrace⟩ := valid
  obtain ⟨c, tail, rfl⟩ := exists_cons_of_ne_nil nonempty
  have first : c ≠ '{' := by
    rintro rfl
    exact absurd (all '{' mem_cons_self) (by decide)
  have taken : ∀ stop after, isWord stop = false →
      ((c :: tail) ++ stop :: after).takeWhile isWord = c :: tail :=
    fun stop after stops => takeWhile_append_of_stop all stops
  have left : ∀ stop after, isWord stop = false →
      ((c :: tail) ++ stop :: after).dropWhile isWord = stop :: after :=
    fun stop after stops => dropWhile_append_of_stop all stops
  have space : isWord ' ' = false := by decide
  have brace : isWord '}' = false := by decide
  have spaceTaken := taken ' ' rest space
  have spaceLeft := left ' ' rest space
  have braceTaken := taken '}' (' ' :: rest) brace
  have braceLeft := left '}' (' ' :: rest) brace
  simp only [cons_append] at spaceTaken spaceLeft braceTaken braceLeft
  rcases openBrace with rfl | rfl <;> rcases closeBrace with rfl | rfl <;>
    simp [name?, after?, afterChars?, first, spaceTaken, spaceLeft, braceTaken, braceLeft]

def valueText (value : Bool) : List Char := if value then "true".toList else "false".toList

theorem text_toList (setting : BooleanSetting) :
    setting.text.toList = setting.name.toList ++ ' ' :: '=' :: ' ' :: valueText setting.value := by
  unfold text valueText
  cases setting.value <;> simp

theorem value?_append (value : Bool) (rest : List Char) :
    value? (valueText value ++ rest) = some (value, rest) := by
  cases value <;> rfl

theorem make_eq_ok_iff {base : RuleBase} {name : String} {value : Bool} {setting : BooleanSetting}
    (valid : IsName name.toList) :
    make base name value = .ok setting ↔
      base.forbidModifiers .boolean = .ok () ∧ setting = ⟨name, value⟩ := by
  obtain ⟨opening, word, closing, text, _, nonempty, _, _⟩ := valid
  obtain ⟨c, rest, more⟩ : ∃ c rest, opening ++ word ++ closing = c :: rest :=
    exists_cons_of_ne_nil (by simp [nonempty])
  rw [more] at text
  rw [make, check_bind_eq_ok, text, eq_comm (a := setting)]
  simp [pure, Except.pure]

end BooleanSetting

namespace Rule

variable {rule : Rule} {line : List Char}

theorem recovered_boolean (success : readAs? .boolean line = some (.ok rule)) : rule.Restored line := by
  have kind := kind_of_readAs? success
  simp only [readAs?, BooleanSetting.read?] at success
  obtain ⟨parts, readable, made, stated, audit, decision⟩ := readBy_withoutModifiers_eq_ok success
  obtain ⟨setting, made, body⟩ := map_eq_ok.mp made
  obtain ⟨⟨name, s⟩, named, rest⟩ := bind_eq_some_iff.mp readable
  obtain ⟨t, _, rest⟩ := bind_eq_some_iff.mp rest
  obtain ⟨⟨value, u⟩, _, rest⟩ := bind_eq_some_iff.mp rest
  obtain ⟨comment, ending, ⟨⟩⟩ := map_eq_some_iff.mp rest
  have valid := trailingComment_of_looseEnding? ending
  have isName : BooleanSetting.IsName name := BooleanSetting.isName_of_name? named
  obtain ⟨allowed, rfl⟩ := (BooleanSetting.make_eq_ok_iff (by simpa using isName)).mp made
  have bodyText : rule.body.text.toList = name ++ ' ' :: '=' :: ' ' :: BooleanSetting.valueText value := by
    rw [← body]
    exact (BooleanSetting.text_toList _).trans (by simp)
  have text : rule.statementText =
      name ++ ' ' :: '=' :: ' ' :: (BooleanSetting.valueText value ++ rule.base.comment.toList) := by
    simp [statementText, kind, bodyText, RuleKind.terminator]
  have keyworded : rule.Keyworded line := by
    refine ⟨⟨fun _ => modifiers_eq_empty audit decision, stated, valid, ?_, fun _ => ?_⟩, "$", ?_, ?_⟩
    · rw [kind, String.toList_append, bodyText]
      have ends : EndsSolid (BooleanSetting.valueText value) := by
        cases value with
        | true => exact ⟨"tru".toList, 'e', rfl, by decide⟩
        | false => exact ⟨"fals".toList, 'e', rfl, by decide⟩
      simp only [RuleKind.terminator, String.toList_empty, append_nil]
      exact (((ends.cons ' ').cons '=').cons ' ').append _
    · have plain : '\n' ∉ BooleanSetting.valueText value := by cases value <;> decide
      simp [bodyText, plain, isName.oneLine]
    · rw [kind]
      decide
    · rw [text]
      obtain ⟨opening, word, closing, rfl, _⟩ := isName
      exact ⟨_, rfl⟩
  have again : BooleanSetting.ofParts rule.rewritten.base ⟨name, value⟩ = .ok ⟨String.ofList name, value⟩ :=
    (BooleanSetting.make_eq_ok_iff (by simpa using isName)).mpr ⟨allowed, rfl⟩
  refine keyworded.recovered_rewritten kind (readAs?.eq_3 _) ?_ (map_eq_ok.mpr ⟨_, again, body⟩)
  refine keyworded.shows.withoutModifiers_canonical keyworded.starts audit decision ?_
  have equals : ∀ t, after? "=" (trimStart (' ' :: '=' :: t)) = some t := fun _ => rfl
  have solid : ∀ t, trimStart (' ' :: (BooleanSetting.valueText value ++ t)) =
      BooleanSetting.valueText value ++ t := by
    intro t
    cases value <;> rfl
  simp only [text, BooleanSetting.name?_append isName, bind_some, equals, solid,
    BooleanSetting.value?_append, looseEnding?_of_trailingComment valid]
  rfl

end Rule

/-! ## Network access -/

namespace Network

def knownWords : List String := domains ++ types ++ protocols

theorem make_eq_ok {domain type : Extent String} {content : Network}
    (success : make domain type = .ok content) :
    content = ⟨domain, type⟩ ∧ (∀ word ∈ domain.value?, word ∈ knownWords) ∧
      ∀ word ∈ type.value?, word ∈ knownWords := by
  unfold make at success
  split at success
  · cases success
  next noDomain =>
    split at success
    · cases success
    next noType =>
      cases success
      rw [filter_eq_none_iff] at noDomain noType
      refine ⟨rfl, fun word member => ?_, fun word member => ?_⟩
      · have known := noDomain word member
        simp only [knownWords, mem_append]
        exact .inl (.inl (by simpa using known))
      · have known := noType word member
        simp only [knownWords, mem_append]
        have cases : word ∈ types ∨ word ∈ protocols :=
          Decidable.or_iff_not_imp_left.mpr (by simpa [isType] using known)
        rcases cases with socket | protocol
        · exact .inl (.inr socket)
        · exact .inr protocol

theorem ofParts_eq_ok {body : List Char} {content : Network} (success : ofParts body = .ok content) :
    content.text.toList =
        "network".toList ++ ((words body).map String.ofList).flatMap (fun word => ' ' :: word.toList) ∧
      ∀ word ∈ (words body).map String.ofList, word ∈ knownWords := by
  unfold ofParts at success
  split at success
  next none =>
    obtain ⟨rfl, _⟩ := make_eq_ok success
    rw [none]
    exact ⟨rfl, by simp⟩
  next word one =>
    rw [one]
    split at success
    · obtain ⟨rfl, known, _⟩ := make_eq_ok success
      exact ⟨by simp [text, Extent.text], by simpa [Extent.value?] using known⟩
    · split at success
      · obtain ⟨rfl, _, known⟩ := make_eq_ok success
        exact ⟨by simp [text, Extent.text], by simpa [Extent.value?] using known⟩
      · cases success
  next domain type two =>
    obtain ⟨rfl, domainKnown, typeKnown⟩ := make_eq_ok success
    rw [two]
    refine ⟨by simp [text, Extent.text], ?_⟩
    rw [forall_mem_cons, forall_mem_cons]
    exact ⟨domainKnown domain rfl, typeKnown type rfl, by simp⟩
  · cases success

end Network

theorem Rule.recovered_network {rule : Rule} {line : List Char}
    (success : readAs? .network line = some (.ok rule)) : rule.Restored line := by
  have kind := kind_of_readAs? success
  simp only [readAs?, Network.read?] at success
  obtain ⟨body, _, _, made, stated, comment⟩ := readBy_keywordStatement_eq_ok success
  obtain ⟨content, made, shape⟩ := map_eq_ok.mp made
  obtain ⟨text, known⟩ := Network.ofParts_eq_ok made
  have solid : ∀ word ∈ (words body).map String.ofList, SolidWord word := by
    intro word member
    obtain ⟨chars, among, rfl⟩ := mem_map.mp member
    exact solidWord_of_mem_words among
  have plain : ∀ word ∈ Network.knownWords, ',' ∉ word.toList := by decide
  have bodyText : rule.body.text.toList =
      "network".toList ++ spacedPart (spaced ((words body).map String.ofList)).toList := by
    rw [← shape, spacedPart_spaced solid]
    exact text
  have again : Network.ofParts (spacedPart (spaced ((words body).map String.ofList)).toList) =
      .ok content := by
    rw [← made]
    simp only [Network.ofParts, words_spacedPart, wordsOf_spaced solid]
  refine recovered_rewritten_of_body (by rw [kind]; rfl) (by rw [kind]; decide) bodyText kind stated comment ?_
    (readAs?.eq_9 _) (map_eq_ok.mpr ⟨content, again, shape⟩)
  exact plainBody_spaced solid fun word member => plain word (known word member)

/-! ## Freeform statements -/

namespace Freeform

theorem text_toList (freeform : Freeform) :
    freeform.text.toList = freeform.keyword.toList ++ spacedPart freeform.body.toList := by
  unfold text
  split
  next none => simp [String.isEmpty_iff.mp none, spacedPart]
  next some =>
    have nonempty : freeform.body.toList ≠ [] := by simpa using some
    simp [spacedPart_of_ne_nil nonempty]

end Freeform

theorem Rule.recovered_freeform {rule : Rule} {line : List Char}
    (success : readAs? .freeform line = some (.ok rule)) : rule.Restored line := by
  have kind := kind_of_readAs? success
  simp only [readAs?, Freeform.read?] at success
  obtain ⟨s, parts, suffix, readable, made, stated, _⟩ := readBy_withModifiers_eq_ok success
  obtain ⟨keyword, member, readable⟩ := exists_of_findSome?_eq_some readable
  obtain ⟨t, behind, readable⟩ := bind_eq_some_iff.mp readable
  obtain ⟨⟨body, comment⟩, found, ⟨⟩⟩ := map_eq_some_iff.mp readable
  obtain ⟨⟨rest, split, ending⟩, all⟩ := body?_eq_some found
  have valid := trailingComment_of_commaEnding? ending
  have shape : RuleBody.freeform ⟨keyword, spaced ((words body).map String.ofList)⟩ = rule.body := by
    simpa [Freeform.ofParts, Freeform.make, wordsOf] using Except.ok.inj made
  have solid : ∀ word ∈ (words body).map String.ofList, SolidWord word := by
    intro word among
    obtain ⟨chars, inBody, rfl⟩ := mem_map.mp among
    exact solidWord_of_mem_words inBody
  have noSign : ∀ c ∈ (spaced ((words body).map String.ofList)).toList, c ≠ '#' := by
    refine forall_mem_spaced (by decide) ?_
    rintro word among c inWord rfl
    obtain ⟨chars, inBody, rfl⟩ := mem_map.mp among
    rw [String.toList_ofList] at inWord
    rcases all '#' (subset_of_mem_fields inBody inWord) with blank | other
    · cases blank
    · cases other
  generalize (words body).map String.ofList = pieces at shape solid noSign
  have tidyPart : (spaced pieces).toList ≠ [] → Tidy (spaced pieces).toList := by
    refine fun some => tidy_spaced ?_ solid
    rintro rfl
    exact some rfl
  have bodyText : rule.body.text.toList = keyword.toList ++ spacedPart (spaced pieces).toList := by
    rw [← shape]
    exact Freeform.text_toList _
  have shows : rule.kind.showsModifiers := by rw [kind]; rfl
  have keyworded : rule.Keyworded line :=
    keyworded_of_body shows (by rw [kind]; exact member) bodyText stated valid (oneLine_of_tidy tidyPart)
  have made : Freeform.ofParts ⟨keyword, spacedPart (spaced pieces).toList⟩ = ⟨keyword, spaced pieces⟩ := by
    simp [Freeform.ofParts, Freeform.make, wordsOf, words_spacedPart, wordsOf_spaced solid]
  refine keyworded.recovered_rewritten kind (readAs?.eq_10 _) (keyworded.withModifiers_canonical ?_)
    (congrArg Except.ok ((congrArg RuleBody.freeform made).trans shape))
  rw [statementText_of_body shows bodyText]
  refine findSome?_of_unique member ?_ ?_
  · simp only [after?_append, bind_some]
    rw [body?_of_noSign valid tidyPart fun sign => noSign '#' sign rfl]
    rfl
  · intro other among differs
    rw [after?_eq_none ((Freeform.keywords_apart member among differs).notStarts ⟨_, rfl⟩)]
    rfl

end ArmorPolicy
