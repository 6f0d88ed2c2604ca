import ArmorPolicy.Proofs.Rule.Process

/-!
# Message bus rules

The conditions on the peer are written as a list, also where they were read from a single word.
-/

namespace ArmorPolicy

open List Text Line Clauses

theorem Checked.exists_of_mem_mapM {α β : Type} {next : α → Checked β} {all : List α} {results : List β}
    (success : all.mapM next = .ok results) {result : β} (member : result ∈ results) :
    ∃ a ∈ all, next a = .ok result := by
  induction all generalizing results with
  | nil =>
    cases success
    cases member
  | cons a all ih =>
    rw [mapM_cons] at success
    obtain ⟨first, made, success⟩ := Checked.bind_eq_ok.mp success
    obtain ⟨others, further, ⟨⟩⟩ := Checked.bind_eq_ok.mp success
    rcases mem_cons.mp member with rfl | among
    · exact ⟨a, mem_cons_self, made⟩
    · obtain ⟨b, inAll, found⟩ := ih further among
      exact ⟨b, mem_cons_of_mem _ inAll, found⟩

namespace Clauses

/-- Conditions in the order of their keys, each where it is stated. -/
def statedAll (entries : List (String × Option ClauseValue)) : List (String × ClauseValue) :=
  entries.flatMap fun entry => stated entry.1 entry.2

variable {access : List String} {key : String} {others : List (String × Option ClauseValue)}

theorem ne_of_mem_statedAll (fresh : key ∉ others.map Prod.fst) :
    ∀ entry ∈ statedAll others, entry.1 ≠ key := by
  intro entry member same
  obtain ⟨other, among, inStated⟩ := mem_flatMap.mp member
  refine fresh (mem_map.mpr ⟨other, among, ?_⟩)
  rw [← (mem_stated.mp inStated).1, same]

theorem take_statedAll (value : Option ClauseValue) (fresh : key ∉ others.map Prod.fst) :
    take ⟨access, statedAll ((key, value) :: others)⟩ key = .ok (value, ⟨access, statedAll others⟩) :=
  take_front value (ne_of_mem_statedAll fresh)

theorem takePattern_statedAll {pattern : Extent Pattern} (made : MadeOfText pattern)
    (fresh : key ∉ others.map Prod.fst) :
    takePattern ⟨access, statedAll ((key, patternValue pattern) :: others)⟩ key =
      .ok (pattern, ⟨access, statedAll others⟩) :=
  takePattern_front made (ne_of_mem_statedAll fresh)

end Clauses

namespace Dbus

theorem isName_accessWords : ∀ word ∈ accessWords, IsName word := by decide

/-! ## The bus -/

def busValue (bus : Extent String) : Option ClauseValue := bus.value?.map .single

theorem busOf_eq_ok_iff {value : Option ClauseValue} {bus : Extent String} :
    busOf value = .ok bus ↔ value = busValue bus := by
  unfold busOf busValue
  split <;> cases bus <;> simp [Extent.value?, refuse]

/-! ## The peer -/

/-- The item for a condition on the peer, where there is one. -/
def peerItem (key : String) (value : Extent Pattern) : List String :=
  (value.value?.map fun pattern => key ++ "=" ++ pattern.glob).toList

def peerItems (dbus : Dbus) : List String :=
  peerItem "name" dbus.peerName ++ peerItem "label" dbus.peerLabel

def peerValue (dbus : Dbus) : Option ClauseValue :=
  if dbus.peerItems = [] then none else some (.list dbus.peerItems)

theorem peerCondition_eq_ok_iff {item key : String} {value : ClauseValue} :
    peerCondition item = .ok (key, value) ↔
      '=' ∉ key.toList ∧ ∃ text, value = .single text ∧ text ≠ "" ∧ item = key ++ "=" ++ text := by
  unfold peerCondition
  constructor
  · intro success
    split at success
    next name c rest cut =>
      cases success
      obtain ⟨split, absent⟩ := upTo?_eq_some_iff.mp cut
      refine ⟨by simpa using absent, _, rfl, by simp, ?_⟩
      rw [← String.toList_inj, split]
      simp
    · cases success
  · rintro ⟨absent, text, rfl, nonempty, rfl⟩
    have cut : upTo? '=' (key ++ "=" ++ text).toList = some (key.toList, text.toList) := by
      simpa using upTo?_append absent text.toList
    cases shape : text.toList with
    | nil => exact absurd (String.toList_eq_nil_iff.mp shape) nonempty
    | cons c rest =>
      have whole : String.ofList (c :: rest) = text := by rw [← shape, String.ofList_toList]
      simp only [cut, shape, String.ofList_toList, whole]

theorem mapM_peerItem {key : String} (absent : '=' ∉ key.toList) {value : Extent Pattern}
    (made : MadeOfText value) :
    (peerItem key value).mapM peerCondition = .ok (stated key (patternValue value)) := by
  cases value with
  | all => rfl
  | only pattern =>
    have read : peerCondition (key ++ "=" ++ pattern.glob) = .ok (key, .single pattern.glob) :=
      peerCondition_eq_ok_iff.mpr ⟨absent, _, rfl, (made pattern rfl).1, rfl⟩
    simp only [peerItem, Extent.value?, Option.map_some, Option.toList_some, mapM_cons, read]
    rfl

theorem takePeer_statedAll {dbus : Dbus} (name : MadeOfText dbus.peerName)
    (label : MadeOfText dbus.peerLabel) (others : List String) :
    (do
      let (name, clauses) ← takePattern ⟨others, statedAll [("name", patternValue dbus.peerName),
        ("label", patternValue dbus.peerLabel)]⟩ "name"
      let (label, clauses) ← clauses.takePattern "label"
      clauses.finish "dbus peer"
      return (name, label)) = (.ok (dbus.peerName, dbus.peerLabel) : Checked _) := by
  rw [takePattern_statedAll name (by simp)]
  simp only [bind, Except.bind]
  rw [takePattern_statedAll label (by simp)]
  rfl

theorem peerOf_peerValue {dbus : Dbus} (name : MadeOfText dbus.peerName) (label : MadeOfText dbus.peerLabel) :
    peerOf dbus.peerValue = .ok (dbus.peerName, dbus.peerLabel) := by
  have conditions : dbus.peerItems.mapM peerCondition =
      .ok (statedAll [("name", patternValue dbus.peerName), ("label", patternValue dbus.peerLabel)]) := by
    rw [peerItems, mapM_append, mapM_peerItem (by decide) name, mapM_peerItem (by decide) label]
    simp [statedAll, pure, Except.pure, bind, Except.bind]
  unfold peerValue
  split
  next none =>
    have noName : dbus.peerName = .all := by
      cases shape : dbus.peerName with
      | all => rfl
      | only pattern => simp [peerItems, peerItem, shape, Extent.value?] at none
    have noLabel : dbus.peerLabel = .all := by
      cases shape : dbus.peerLabel with
      | all => rfl
      | only pattern => simp [peerItems, peerItem, shape, Extent.value?] at none
    rw [noName, noLabel]
    rfl
  · simp only [peerOf, ClauseValue.items, conditions, bind, Except.bind]
    exact takePeer_statedAll name label []

/-! ## Bodies -/

/-- The rule passes its check, and its patterns are made of their texts. -/
structure Sound (dbus : Dbus) : Prop where
  access : dbus.access.IsFor accessWords
  path : MadeOfText dbus.path
  name : MadeOfText dbus.name
  interface : MadeOfText dbus.interface
  member : MadeOfText dbus.member
  peerName : MadeOfText dbus.peerName
  peerLabel : MadeOfText dbus.peerLabel
  passes : checked dbus = .ok dbus

theorem eq_of_checked {dbus found : Dbus} (success : checked dbus = .ok found) : found = dbus := by
  obtain ⟨_, _, success⟩ := Checked.bind_eq_ok.mp success
  split at success
  · cases success
  · cases success
    rfl

def entries (dbus : Dbus) : List (String × Option ClauseValue) :=
  [("bus", busValue dbus.bus), ("path", patternValue dbus.path), ("name", patternValue dbus.name),
    ("interface", patternValue dbus.interface), ("member", patternValue dbus.member),
    ("peer", dbus.peerValue)]

theorem Sound.ofParts_of_read {dbus : Dbus} {body : List Char} (sound : dbus.Sound)
    (read : Clauses.read body = .ok ⟨dbus.access.words, statedAll dbus.entries⟩) :
    ofParts body = .ok dbus := by
  have isBus : busOf (busValue dbus.bus) = .ok dbus.bus := busOf_eq_ok_iff.mpr rfl
  simp only [ofParts, read, bind, Except.bind, Access.ofWords_words .dbus sound.access, entries]
  rw [take_statedAll _ (by simp)]
  simp only [isBus]
  rw [takePattern_statedAll sound.path (by simp)]
  simp only
  rw [takePattern_statedAll sound.name (by simp)]
  simp only
  rw [takePattern_statedAll sound.interface (by simp)]
  simp only
  rw [takePattern_statedAll sound.member (by simp)]
  simp only
  rw [take_statedAll _ (by simp)]
  simp only [peerOf_peerValue sound.peerName sound.peerLabel]
  exact sound.passes

end Dbus

end ArmorPolicy
