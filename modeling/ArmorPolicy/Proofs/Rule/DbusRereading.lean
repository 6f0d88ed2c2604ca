import ArmorPolicy.Proofs.Rule.Rereading

/-!
# Message bus rules that are read back

The conditions on the peer stand in a list, so that their values end at other signs than the values of
the conditions before them.
-/

namespace ArmorPolicy

open Checked List Text Line Clauses

namespace Clauses

variable {s rest : List Char}

/-! ## Conditions in a list -/

theorem group_conditionOf {key value : String} (name : IsName key) (noMark : '"' ∉ value.toList)
    (legible : LegibleItem value.toList) (ends : EndsWord (· == ')') rest) :
    group (conditionOf key (quoteIfNeeded value).toList ++ rest) =
      (group rest).map fun (items, rest) => ((key ++ "=" ++ value) :: items, rest) := by
  obtain ⟨c, tail, shape, separates, _⟩ := name.1.exists_cons
  have plain : ∀ d ∈ key.toList ++ ['='], (isSeparator d || (d == ')')) = false ∧ d ≠ '"' := by
    intro d member
    rcases mem_append.mp member with inKey | sign
    · refine ⟨?_, (name.1.plain d inKey).2⟩
      rw [(name.1.plain d inKey).1, Bool.false_or, beq_eq_false_iff_ne]
      rintro rfl
      exact name.isItem.2 inKey
    · rw [mem_singleton.mp sign]
      decide
  let item := (key.toList ++ ['=']) ++ ((quoteIfNeeded value).toList ++ rest)
  have whole : item = c :: (tail ++ ['='] ++ ((quoteIfNeeded value).toList ++ rest)) := by
    simp only [item, shape]
    rfl
  have notEnd : c ≠ ')' := by
    rintro rfl
    exact name.isItem.2 (by rw [shape]; exact mem_cons_self)
  have read : word (· == ')') item = ((key ++ "=" ++ value).toList, rest) := by
    rw [word_append_plain plain, word_quoteIfNeeded noMark legible ends]
    simp
  have shorter : rest.length < item.length := by
    simp only [item, length_append, length_cons]
    omega
  have text : conditionOf key (quoteIfNeeded value).toList ++ rest = ' ' :: item := by
    simp [conditionOf, item]
  rw [text, group_space, group_word whole separates notEnd read shorter, String.ofList_toList]

namespace Singles

def items (singles : Singles) : List String :=
  singles.flatMap fun single => (single.2.map fun value => single.1 ++ "=" ++ value).toList

/-- Every value is read back from an item of a list. -/
def LegibleItems (singles : Singles) : Prop :=
  ∀ single ∈ singles, ∀ value ∈ single.2, LegibleItem value.toList

instance (singles : Singles) : Decidable singles.LegibleItems :=
  inferInstanceAs (Decidable (∀ single ∈ singles, ∀ value ∈ single.2, LegibleItem value.toList))

variable {singles : Singles}

theorem items_eq_nil_iff : singles.items = [] ↔ singles.written = [] := by
  simp only [items, written, flatMap_eq_nil_iff]
  refine forall₂_congr fun single _ => ?_
  cases single.2 <;> simp [conditionOf]

theorem endsWord_written (singles : Singles) (rest : List Char) :
    EndsWord (· == ')') (singles.written ++ ')' :: rest) := by
  induction singles with
  | nil =>
    rintro _ ⟨⟩
    decide
  | cons single singles ih =>
    obtain ⟨key, value⟩ := single
    cases value with
    | none => exact ih
    | some value => exact endsWord_of_space _

theorem group_written (names : ∀ single ∈ singles, IsName single.1) (given : singles.Given)
    (legible : singles.LegibleItems) (rest : List Char) :
    group (singles.written ++ ')' :: rest) = .ok (singles.items, rest) := by
  induction singles with
  | nil => exact group_of_end
  | cons single singles ih =>
    obtain ⟨named, names⟩ := forall_mem_cons.mp names
    obtain ⟨valued, given⟩ := forall_mem_cons.mp given
    obtain ⟨readable, legible⟩ := forall_mem_cons.mp legible
    have others := ih names given legible
    obtain ⟨key, value⟩ := single
    cases value with
    | none => exact others
    | some value =>
      have first := group_conditionOf named (valued value rfl).2 (readable value rfl)
        (endsWord_written singles rest)
      rw [others, ← append_assoc] at first
      exact first

end Singles

end Clauses

/-! ## The peer -/

namespace Dbus

variable {dbus again : Dbus} {body : List Char}

def singles (dbus : Dbus) : Singles :=
  [("bus", dbus.bus.value?), ("path", dbus.path.glob?), ("name", dbus.name.glob?),
    ("interface", dbus.interface.glob?), ("member", dbus.member.glob?)]

def peers (dbus : Dbus) : Singles := [("name", dbus.peerName.glob?), ("label", dbus.peerLabel.glob?)]

theorem isName_singles : ∀ single ∈ dbus.singles, IsName single.1 := by
  have all : ∀ key ∈ ["bus", "path", "name", "interface", "member"], IsName key := by decide
  exact fun single member => all single.1 (mem_map_of_mem member)

theorem isName_peers : ∀ single ∈ dbus.peers, IsName single.1 := by
  have all : ∀ key ∈ ["name", "label"], IsName key := by decide
  exact fun single member => all single.1 (mem_map_of_mem member)

theorem mapM_peerCondition_sublist {items : List String} {conditions : List (String × ClauseValue)}
    (success : items.mapM peerCondition = .ok conditions) :
    (letters conditions).Sublist (items.flatMap String.toList) := by
  induction items generalizing conditions with
  | nil =>
    cases success
    exact List.Sublist.refl _
  | cons item items ih =>
    rw [mapM_cons] at success
    obtain ⟨⟨key, value⟩, made, success⟩ := bind_eq_ok.mp success
    obtain ⟨others, further, ⟨⟩⟩ := bind_eq_ok.mp success
    obtain ⟨_, text, rfl, _, rfl⟩ := peerCondition_eq_ok_iff.mp made
    have first : text.toList.Sublist (key ++ "=" ++ text).toList := by
      rw [String.toList_append]
      exact sublist_append_right _ _
    simpa [letters, ClauseValue.letters, ClauseValue.items] using first.append (ih further)

/-- The items of the value that states the peer. -/
def peerItemsOf (value : Option ClauseValue) : List String := value.elim [] ClauseValue.items

theorem peers_of_peerOf {value : Option ClauseValue} {name label : Extent Pattern}
    (success : peerOf value = .ok (name, label)) :
    MadeOfText name ∧ MadeOfText label ∧
      ∃ conditions, (peerItemsOf value).mapM peerCondition = .ok conditions ∧
        conditions.Perm (statedAll (Singles.entries [("name", name.glob?), ("label", label.glob?)])) := by
  cases value with
  | none =>
    cases success
    have nothing : MadeOfText .all := by
      rintro pattern ⟨⟩
    exact ⟨nothing, nothing, [], rfl, List.Perm.refl _⟩
  | some value =>
    obtain ⟨conditions, read, success⟩ := bind_eq_ok.mp success
    obtain ⟨⟨first, rest⟩, nameTaken, success⟩ := bind_eq_ok.mp success
    obtain ⟨⟨second, others⟩, labelTaken, success⟩ := bind_eq_ok.mp success
    obtain ⟨_, finished, ⟨⟩⟩ := bind_eq_ok.mp success
    obtain ⟨nameMade, namePerm⟩ := takePattern_perm nameTaken
    obtain ⟨labelMade, labelPerm⟩ := takePattern_perm labelTaken
    rw [finish_eq_ok finished] at labelPerm
    refine ⟨nameMade, labelMade, conditions, read, ?_⟩
    have perm := namePerm.trans (labelPerm.append_left _)
    rwa [Extent.patternValue_eq, Extent.patternValue_eq] at perm

section Peers

variable {value : Option ClauseValue} (isPeer : peerOf value = .ok (dbus.peerName, dbus.peerLabel))
include isPeer

theorem mem_peerItemsOf {single : String × Option String} {text : String} (member : single ∈ dbus.peers)
    (found : text ∈ single.2) : text ≠ "" ∧ single.1 ++ "=" ++ text ∈ peerItemsOf value := by
  obtain ⟨_, _, conditions, read, perm⟩ := peers_of_peerOf isPeer
  have among := perm.mem_iff.mpr (Singles.mem_statedAll (List.Subset.refl _) member found)
  obtain ⟨item, inItems, made⟩ := exists_of_mem_mapM read among
  obtain ⟨_, other, same, nonempty, rfl⟩ := peerCondition_eq_ok_iff.mp made
  cases same
  exact ⟨nonempty, inItems⟩

theorem letters_peers :
    (letters (statedAll dbus.peers.entries)).countP isBreak ≤ (letters (stated "peer" value)).countP isBreak ∧
      letters (statedAll dbus.peers.entries) ⊆ letters (stated "peer" value) := by
  obtain ⟨_, _, conditions, read, perm⟩ := peers_of_peerOf isPeer
  have same : (letters conditions).Perm (letters (statedAll dbus.peers.entries)) := perm.flatMap_right _
  have whole : (peerItemsOf value).flatMap String.toList = letters (stated "peer" value) := by
    cases value with
    | none => rfl
    | some value => simp [peerItemsOf, letters, stated, ClauseValue.letters]
  have sublist := mapM_peerCondition_sublist read
  rw [whole] at sublist
  refine ⟨?_, fun c member => sublist.subset (same.mem_iff.mpr member)⟩
  rw [← same.countP_eq isBreak]
  exact sublist.countP_le

end Peers

/-! ## The text -/

theorem busText_eq (bus : Extent String) :
    (bus.text fun bus => " bus=" ++ quoteIfNeeded bus).toList = Singles.written [("bus", bus.value?)] := by
  cases bus with
  | all => rfl
  | only bus => simp [Extent.text, Extent.value?, Singles.written, conditionOf]

def clausesText (dbus : Dbus) : List Char :=
  dbus.access.text.toList ++ (dbus.singles.written ++ dbus.peerText.toList)

theorem text_eq (dbus : Dbus) : dbus.text.toList = "dbus".toList ++ dbus.clausesText := by
  have written : dbus.singles.written = Singles.written [("bus", dbus.bus.value?)] ++
      (Singles.written [("path", dbus.path.glob?)] ++ (Singles.written [("name", dbus.name.glob?)] ++
        (Singles.written [("interface", dbus.interface.glob?)] ++
          Singles.written [("member", dbus.member.glob?)]))) := by
    simp [Singles.written, singles]
  rw [clausesText, written]
  simp only [text, String.toList_append, busText_eq, Extent.conditionText_toList, append_assoc]

theorem peerText_eq (given : dbus.peers.Given) :
    dbus.peers.written = [] ∧ dbus.peerText.toList = [] ∨
      ∃ part, dbus.peers.written = ' ' :: part ∧
        dbus.peerText.toList = conditionOf "peer" ('(' :: (part ++ [')'])) := by
  have conditions : (dbus.peerName.conditionText "name" ++ dbus.peerLabel.conditionText "label").toList =
      dbus.peers.written := by
    rw [String.toList_append, Extent.conditionText_toList, Extent.conditionText_toList]
    simp [Singles.written, peers]
  unfold peerText
  split
  next empty =>
    rw [empty] at conditions
    exact .inl ⟨conditions.symm, rfl⟩
  next nonempty =>
    have some : dbus.peers.written ≠ [] := by
      rw [← conditions]
      exact fun none => nonempty (String.toList_eq_nil_iff.mp none)
    obtain ⟨part, shape, starts⟩ := (Singles.inked_written isName_peers given).starts some
    refine .inr ⟨part, shape, ?_⟩
    rw [conditions, shape, trimStart_space, trimStart_of_startsSolid starts]
    simp [conditionOf]

theorem inked_peerText (given : dbus.peers.Given) :
    Inked (letters (statedAll dbus.peers.entries)) dbus.peerText.toList := by
  have inked := Singles.inked_written isName_peers given
  rcases peerText_eq given with ⟨none, text⟩ | ⟨part, shape, text⟩
  · rw [text, ← none]
    exact inked
  · rw [shape] at inked
    rw [text]
    have front : conditionOf "peer" ('(' :: (part ++ [')'])) = " peer=(".toList ++ (part ++ [')']) := rfl
    refine ⟨?_, ?_, fun absent => ?_, fun _ => ⟨_, rfl, 'p', _, rfl, by decide⟩, ?_⟩
    · have opening : Marked " peer=(".toList := .of_noMark (by decide)
      have closing : Marked [')'] := .of_noMark (by decide)
      exact opening.append ((inked.marked.tail (by decide)).append closing)
    · rw [← inked.breaks, front, countP_append, countP_append, countP_cons_of_neg (by decide)]
      exact Nat.zero_add _
    · have inPart := inked.oneLine absent
      rw [front]
      simp only [mem_append, not_or]
      exact ⟨by decide, fun newline => inPart (mem_cons_of_mem _ newline), by decide⟩
    · rw [front, ← append_assoc, getLast?_concat]
      decide

theorem peerItems_eq (dbus : Dbus) : dbus.peerItems = dbus.peers.items := by
  unfold peerItems peerItem peers Singles.items Extent.glob?
  cases dbus.peerName.value? <;> cases dbus.peerLabel.value? <;> rfl

theorem stating_peerText (given : dbus.peers.Given) (legible : dbus.peers.LegibleItems) :
    Stating "peer" dbus.peerValue dbus.peerText.toList := by
  have read := Singles.group_written isName_peers given legible
  rw [peerValue, peerItems_eq]
  rcases peerText_eq given with ⟨none, text⟩ | ⟨part, shape, text⟩
  · rw [text, if_pos (Singles.items_eq_nil_iff.mpr none)]
    exact .none
  · have items : dbus.peers.items ≠ [] := fun none => by
      rw [Singles.items_eq_nil_iff, shape] at none
      cases none
    rw [text, if_neg items]
    refine .some (fun key rest _ => ?_) ⟨'(' :: part, ')', rfl, by decide⟩
    have group := read rest
    rw [shape, cons_append, group_space] at group
    rw [cons_append, append_assoc, singleton_append, Clauses.value, group]
    rfl

/-! ## Bodies -/

theorem entries_eq (dbus : Dbus) : dbus.entries = dbus.singles.entries ++ [("peer", dbus.peerValue)] := by
  simp only [entries, Extent.patternValue_eq]
  rfl

theorem gives_of_ofParts (success : ofParts body = .ok dbus) :
    dbus.Sound ∧ ∃ value, peerOf value = .ok (dbus.peerName, dbus.peerLabel) ∧
      Gives body (dbus.singles.entries ++ [("peer", value)]) := by
  obtain ⟨clauses, read, success⟩ := bind_eq_ok.mp success
  obtain ⟨access, accessOf, success⟩ := bind_eq_ok.mp success
  obtain ⟨⟨busFound, rest₁⟩, busTaken, success⟩ := bind_eq_ok.mp success
  obtain ⟨bus, isBus, success⟩ := bind_eq_ok.mp success
  obtain ⟨⟨path, rest₂⟩, pathTaken, success⟩ := bind_eq_ok.mp success
  obtain ⟨⟨name, rest₃⟩, nameTaken, success⟩ := bind_eq_ok.mp success
  obtain ⟨⟨interface, rest₄⟩, interfaceTaken, success⟩ := bind_eq_ok.mp success
  obtain ⟨⟨member, rest₅⟩, memberTaken, success⟩ := bind_eq_ok.mp success
  obtain ⟨⟨peerFound, rest₆⟩, peerTaken, success⟩ := bind_eq_ok.mp success
  obtain ⟨⟨peerName, peerLabel⟩, isPeer, success⟩ := bind_eq_ok.mp success
  obtain ⟨_, finished, success⟩ := bind_eq_ok.mp success
  have passes := success
  obtain rfl := eq_of_checked success
  obtain rfl := busOf_eq_ok_iff.mp isBus
  obtain ⟨pathMade, pathPerm⟩ := takePattern_perm pathTaken
  obtain ⟨nameMade, namePerm⟩ := takePattern_perm nameTaken
  obtain ⟨interfaceMade, interfacePerm⟩ := takePattern_perm interfaceTaken
  obtain ⟨memberMade, memberPerm⟩ := takePattern_perm memberTaken
  obtain ⟨peerNameMade, peerLabelMade, _⟩ := peers_of_peerOf isPeer
  have peerPerm := take_perm peerTaken
  rw [finish_eq_ok finished] at peerPerm
  refine ⟨⟨Access.isFor_of_ofWords accessOf, pathMade, nameMade, interfaceMade, memberMade, peerNameMade,
    peerLabelMade, passes⟩, peerFound, isPeer, clauses, read, ?_⟩
  have upToMember := memberPerm.trans (peerPerm.append_left _)
  have upToInterface := interfacePerm.trans (upToMember.append_left _)
  have upToName := namePerm.trans (upToInterface.append_left _)
  have all := (take_perm busTaken).trans ((pathPerm.trans (upToName.append_left _)).append_left _)
  simp only [Extent.patternValue_eq] at all
  exact all

theorem eq_of_same (same : again.same dbus) : again.singles = dbus.singles ∧ again.peers = dbus.peers := by
  simp only [Dbus.same, Bool.and_eq_true] at same
  obtain ⟨⟨⟨⟨⟨⟨⟨_, bus⟩, path⟩, name⟩, interface⟩, member⟩, peerName⟩, peerLabel⟩ := same
  rw [singles, singles, peers, peers, eq_of_beq bus, Extent.glob?_eq_of_sameBy path,
    Extent.glob?_eq_of_sameBy name, Extent.glob?_eq_of_sameBy interface,
    Extent.glob?_eq_of_sameBy member, Extent.glob?_eq_of_sameBy peerName,
    Extent.glob?_eq_of_sameBy peerLabel]
  exact ⟨rfl, rfl⟩

theorem legibleItem_of_item {key text : String} (name : IsName key)
    (legible : LegibleItem (key ++ "=" ++ text).toList) : LegibleItem text.toList := by
  simp only [LegibleItem, LegibleWord, String.toList_append, mem_append] at legible
  refine legible.imp (fun space => ?_) fun plain c member => plain c (.inr member)
  rcases space with (inKey | equals) | inText
  · exact absurd (name.1.plain _ inKey).1 (by decide)
  · exact absurd equals (by decide)
  · exact inText

section Gives

variable {value : Option ClauseValue} (isPeer : peerOf value = .ok (dbus.peerName, dbus.peerLabel))
  (gives : Gives body (dbus.singles.entries ++ [("peer", value)]))
include isPeer gives

theorem exists_peerItem {Inv Single Item : List Char → Prop} (scanned : Scanned Inv Single Item)
    (inv : Inv body) {single : String × Option String} {text : String} (member : single ∈ dbus.peers)
    (found : text ∈ single.2) :
    text ≠ "" ∧ (Single (single.1 ++ "=" ++ text).toList ∨ Item (single.1 ++ "=" ++ text).toList) := by
  obtain ⟨nonempty, inItems⟩ := mem_peerItemsOf isPeer member found
  refine ⟨nonempty, ?_⟩
  cases value with
  | none => cases inItems
  | some value =>
    have among : ("peer", value) ∈ statedAll (dbus.singles.entries ++ [("peer", some value)]) :=
      mem_flatMap.mpr ⟨("peer", some value), by simp, mem_stated.mpr ⟨rfl, rfl⟩⟩
    have holds := gives.holds scanned inv _ among
    cases value with
    | single item =>
      rw [mem_singleton.mp inItems]
      exact .inl holds.2
    | list items => exact .inr (holds _ inItems)

theorem given_peers : dbus.peers.Given := by
  intro single member text found
  obtain ⟨nonempty, noMark⟩ := exists_peerItem isPeer gives scanned_noMark trivial member found
  rw [or_self] at noMark
  refine ⟨nonempty, fun mark => noMark ?_⟩
  rw [String.toList_append]
  exact mem_append_right _ mark

omit gives in
theorem letters_le :
    letters (statedAll dbus.singles.entries) ++ letters (statedAll dbus.peers.entries) ⊆
        letters (statedAll (dbus.singles.entries ++ [("peer", value)])) ∧
      (letters (statedAll dbus.singles.entries) ++ letters (statedAll dbus.peers.entries)).countP isBreak ≤
        (letters (statedAll (dbus.singles.entries ++ [("peer", value)]))).countP isBreak := by
  have split : letters (statedAll (dbus.singles.entries ++ [("peer", value)])) =
      letters (statedAll dbus.singles.entries) ++ letters (stated "peer" value) := by
    simp [letters, statedAll]
  obtain ⟨fewer, within⟩ := letters_peers isPeer
  rw [split, countP_append, countP_append]
  refine ⟨fun c member => ?_, Nat.add_le_add_left fewer _⟩
  exact (mem_append.mp member).elim (mem_append_left _) fun inPeers =>
    mem_append_right _ (within inPeers)

end Gives

section Reading

variable (isFor : dbus.access.IsFor accessWords) (given : dbus.singles.Given)
  (legible : dbus.singles.Legible)
include isFor given legible

theorem exists_list {part : List Char} {clauses : Clauses}
    (text : dbus.peerText.toList = conditionOf "peer" ('(' :: (part ++ [')'])))
    (success : read dbus.clausesText = .ok clauses) : ∃ items, ("peer", .list items) ∈ clauses.conditions := by
  have states := Singles.statings isName_singles given legible
  have ends : EndsWord (fun _ => false) dbus.peerText.toList := by
    rw [text]
    exact endsWord_of_space _
  have key : IsName "peer" := by decide
  rw [Clauses.read, clausesText, readFrom_access isName_accessWords isFor (states.endsWord ends),
    states.readFrom_append ends, text, readFrom_conditionOf key] at success
  obtain ⟨_, behindAccess, rfl⟩ := map_eq_ok.mp success
  obtain ⟨_, behindSingles, rfl⟩ := map_eq_ok.mp behindAccess
  obtain ⟨⟨value, rest⟩, valued, further⟩ := bind_eq_ok.mp behindSingles
  obtain ⟨others, _, rfl⟩ := map_eq_ok.mp further
  obtain ⟨⟨items, _⟩, _, ⟨⟩⟩ := map_eq_ok.mp valued
  exact ⟨items, mem_append_right _ mem_cons_self⟩

theorem legible_peers {value : Option ClauseValue} (givenPeers : dbus.peers.Given)
    (marked : Marked dbus.clausesText)
    (gives : Gives dbus.clausesText (dbus.singles.entries ++ [("peer", value)]))
    (isPeer : peerOf value = .ok (again.peerName, again.peerLabel)) (same : again.peers = dbus.peers) :
    dbus.peers.LegibleItems := by
  intro single member text found
  have name := isName_peers single member
  rw [← same] at member
  obtain ⟨_, inItems⟩ := mem_peerItemsOf isPeer member found
  rcases peerText_eq givenPeers with ⟨none, _⟩ | ⟨part, _, written⟩
  · have items := Singles.items_eq_nil_iff.mpr none
    rw [← same, Singles.items, flatMap_eq_nil_iff] at items
    have nothing := items single member
    rw [Option.mem_def.mp found] at nothing
    cases nothing
  · obtain ⟨clauses, success, perm⟩ := id gives
    obtain ⟨items, listed⟩ := exists_list isFor given legible written success
    have among := perm.mem_iff.mp listed
    have isList : value = some (.list items) := by
      obtain ⟨entry, source, states⟩ := mem_flatMap.mp among
      obtain ⟨key, states⟩ := mem_stated.mp states
      rcases mem_append.mp source with inSingles | last
      · obtain ⟨other, isSingle, rfl⟩ := mem_map.mp inSingles
        have keys : ∀ other ∈ ["bus", "path", "name", "interface", "member"], "peer" ≠ other := by decide
        exact absurd key (keys other.1 (mem_map_of_mem isSingle))
      · rw [mem_singleton.mp last] at states
        exact states
    have holds := gives.holds scanned_marked marked _ among
    rw [isList] at inItems
    exact legibleItem_of_item name (holds _ inItems)

end Reading

end Dbus

theorem Rule.dbusGrammar :
    ClauseGrammar .dbus "dbus" Dbus.ofParts .dbus
      (fun dbus => letters (statedAll dbus.singles.entries) ++ letters (statedAll dbus.peers.entries))
      Dbus.clausesText fun dbus => dbus.singles.Legible ∧ dbus.peers.LegibleItems := by
  have given : ∀ {body dbus}, Dbus.ofParts body = .ok dbus →
      dbus.access.IsFor Dbus.accessWords ∧ dbus.singles.Given ∧ dbus.peers.Given := by
    intro body dbus made
    obtain ⟨sound, value, isPeer, gives⟩ := Dbus.gives_of_ofParts made
    exact ⟨sound.access, Singles.given_of_gives (subset_append_left _ _) gives, Dbus.given_peers isPeer gives⟩
  have inked : ∀ {body dbus}, Dbus.ofParts body = .ok dbus →
      Inked (letters (statedAll dbus.singles.entries) ++ letters (statedAll dbus.peers.entries))
        dbus.clausesText := by
    intro body dbus made
    obtain ⟨isFor, singles, peers⟩ := given made
    exact (inked_access Dbus.isName_accessWords isFor).append
      ((Singles.inked_written Dbus.isName_singles singles).append (Dbus.inked_peerText peers))
  refine ⟨fun _ => rfl, rfl, by decide, RuleBody.dbus.inj, Dbus.text_eq, inked, fun made => ?_,
    fun agrees => ?_, fun made => ?_, fun made read agrees => ?_⟩
  · obtain ⟨_, value, isPeer, gives⟩ := Dbus.gives_of_ofParts made
    obtain ⟨within, fewer⟩ := Dbus.letters_le isPeer
    exact ⟨fun c member => gives.letters_subset (within member), Nat.le_trans fewer (gives.countP_le isBreak)⟩
  · obtain ⟨sameSingles, samePeers⟩ := Dbus.eq_of_same (Option.some.inj agrees)
    rw [sameSingles, samePeers]
  · rintro ⟨legible, legiblePeers⟩
    obtain ⟨sound, _⟩ := Dbus.gives_of_ofParts made
    obtain ⟨isFor, singles, peers⟩ := given made
    have peerKey : IsName "peer" := by decide
    have states := (Singles.statings Dbus.isName_singles singles legible).concat peerKey
      (Dbus.stating_peerText peers legiblePeers)
    refine ⟨sound.ofParts_of_read ?_, endsSolid_access Dbus.isName_accessWords isFor states.endsSolid⟩
    rw [Dbus.entries_eq]
    exact read_statings Dbus.isName_accessWords isFor states
  · obtain ⟨isFor, singles, peers⟩ := given made
    have marked := (inked made).marked
    obtain ⟨sameSingles, samePeers⟩ := Dbus.eq_of_same (Option.some.inj agrees)
    obtain ⟨_, value, isPeer, gives⟩ := Dbus.gives_of_ofParts read
    rw [sameSingles] at gives
    have legible := Singles.legible_of_gives (subset_append_left _ _) marked gives
    exact ⟨legible, Dbus.legible_peers isFor singles legible peers marked gives isPeer samePeers⟩

end ArmorPolicy
