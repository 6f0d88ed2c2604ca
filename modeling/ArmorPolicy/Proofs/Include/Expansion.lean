import ArmorPolicy.Include.Expansion
import ArmorPolicy.Proofs.FileSystem.Tree
import ArmorPolicy.Proofs.Text.Words
import Mathlib.Data.List.Basic

/-!
# Includes of directories

An include of a directory stands for files below it, in the order of a walk: depth first, by name.
Whether a name is passed over shows in the name alone, so a file is found exactly where neither its
own name nor the name of a directory on the way to it is passed over; the name of the directory that
is included does not count.
-/

namespace ArmorPolicy

open List Text

/-! ## Pieces -/

namespace Text

variable {p : Char → Bool} {sign : Char}

theorem splitAt_append_sign (found : p sign) (s t : List Char) :
    splitAt p (s ++ sign :: t) = splitAt p s ++ splitAt p t := by
  induction s with
  | nil => simp [splitAt, found]
  | cons c s ih =>
    rw [cons_append, splitAt, splitAt, ih]
    split
    · rfl
    · obtain ⟨piece, pieces, shape⟩ := exists_cons_of_ne_nil (splitAt_ne_nil p s)
      rw [shape]
      rfl

end Text

/-! ## Paths below a base -/

namespace Path

variable {base name path : String}

/-- The name of an entry of a directory, on one line. -/
structure IsName (name : String) : Prop where
  nonempty : name ≠ ""
  noSlash : '/' ∉ name.toList
  notHere : name ≠ "."
  notUp : name ≠ ".."
  oneLine : '\n' ∉ name.toList
  noNul : '\x00' ∉ name.toList
  short : name.utf8ByteSize ≤ FileSystem.nameLimit

instance (name : String) : Decidable (IsName name) :=
  decidable_of_iff (name ≠ "" ∧ '/' ∉ name.toList ∧ name ≠ "." ∧ name ≠ ".." ∧ '\n' ∉ name.toList ∧
      '\x00' ∉ name.toList ∧ name.utf8ByteSize ≤ FileSystem.nameLimit)
    ⟨fun ⟨a, b, c, d, e, f, g⟩ => ⟨a, b, c, d, e, f, g⟩,
      fun valid => ⟨valid.nonempty, valid.noSlash, valid.notHere, valid.notUp, valid.oneLine, valid.noNul, valid.short⟩⟩

/-- What a base puts before the paths below it. -/
def stem (base : String) : List Char :=
  if base.isEmpty || base.toList.getLast? == some '/' then base.toList else base.toList ++ ['/']

theorem toList_join (base path : String) : (join base path).toList = stem base ++ path.toList := by
  unfold join stem
  split <;> simp

theorem stem_eq_nil_or (base : String) : stem base = [] ∨ ∃ front, stem base = front ++ ['/'] := by
  unfold stem
  split
  next ended =>
    simp only [Bool.or_eq_true, beq_iff_eq] at ended
    rcases ended with empty | slash
    · exact .inl (by simpa using empty)
    · exact .inr (getLast?_eq_some_iff.mp slash)
  · exact .inr ⟨_, rfl⟩

theorem oneLine_stem (oneLine : '\n' ∉ base.toList) : '\n' ∉ stem base := by
  unfold stem
  split <;> simp [oneLine]

theorem utf8ByteSize_le_join (base path : String) :
    base.utf8ByteSize + path.utf8ByteSize ≤ (join base path).utf8ByteSize := by
  unfold join
  split <;> simp only [String.utf8ByteSize_append] <;> omega

theorem join_inj {other : String} (same : join base path = join base other) : path = other := by
  have chars := congrArg String.toList same
  rw [toList_join, toList_join] at chars
  exact String.toList_inj.mp (append_cancel_left chars)

theorem isSkippableDirectory_of_open (unclosed : path.toList.reverse.head? ≠ some '/') :
    isSkippableDirectory path =
      (specialDirectories.contains (String.ofList (path.toList.reverse.takeWhile (· != '/')).reverse) &&
        !(path.toList.reverse.dropWhile (· != '/')).contains '\n') := by
  unfold isSkippableDirectory
  split
  next rest shape =>
    rw [shape] at unclosed
    exact absurd rfl unclosed
  · rfl

namespace IsName

theorem ne_nil (valid : IsName name) : name.toList ≠ [] := by simpa using valid.nonempty

theorem stem_join (valid : IsName name) : stem (join base name) = stem base ++ (name.toList ++ ['/']) := by
  obtain ⟨start, last, text⟩ := (eq_nil_or_concat name.toList).resolve_left valid.ne_nil
  have whole : (join base name).toList = (stem base ++ start) ++ [last] := by
    rw [toList_join, text, concat_eq_append, append_assoc]
  have noSlash : last ≠ '/' := by
    rintro rfl
    exact valid.noSlash (by simp [text])
  have some : (join base name).isEmpty = false := by
    have nonempty : (join base name).toList ≠ [] := by simp [whole]
    simpa using nonempty
  rw [stem, some, whole]
  simp [noSlash, text]

theorem join_join (valid : IsName name) : join (join base name) path = join base (name ++ "/" ++ path) := by
  refine String.toList_inj.mp ?_
  rw [toList_join, valid.stem_join, toList_join]
  simp

/-- The pieces of a path below a base, beside those of the base. -/
theorem exists_pieces_join (valid : IsName name) (base : String) :
    ∃ start, pieces (join base name) = start ++ [name] ∧ (pieces base = start ∨ pieces base = start ++ [""]) := by
  have alone : splitAt (· == '/') name.toList = [name.toList] :=
    splitAt_of_none fun c member => by
      rw [beq_eq_false_iff_ne]
      rintro rfl
      exact valid.noSlash member
  have behindSlash : ∀ front, (splitAt (· == '/') (front ++ '/' :: name.toList)).map String.ofList =
      (splitAt (· == '/') front).map String.ofList ++ [name] := by
    intro front
    rw [splitAt_append_sign rfl, alone]
    simp
  rw [pieces, toList_join, pieces, stem]
  split
  next ended =>
    simp only [Bool.or_eq_true, beq_iff_eq] at ended
    rcases ended with empty | slash
    · obtain rfl := String.isEmpty_iff.mp empty
      exact ⟨[], by simp [alone], .inr rfl⟩
    · obtain ⟨front, text⟩ := getLast?_eq_some_iff.mp slash
      refine ⟨_, by rw [text, append_assoc]; exact behindSlash front, .inr ?_⟩
      rw [text, splitAt_append_sign rfl, map_append]
      rfl
  · exact ⟨_, by rw [append_assoc]; exact behindSlash base.toList, .inl rfl⟩

theorem isSkippableFile_join (valid : IsName name) : isSkippableFile (join base name) = isSkippableName name := by
  obtain ⟨start, last, _⟩ := valid.exists_pieces_join base
  have named : fileName? (join base name) = some name := by
    simp [fileName?, components, last, valid.nonempty, valid.notHere, valid.notUp]
  rw [isSkippableFile, named]

theorem isSkippableDirectory_join (valid : IsName name) (oneLine : '\n' ∉ base.toList) :
    isSkippableDirectory (join base name) = specialDirectories.contains name := by
  have plain : ∀ c ∈ name.toList.reverse, (c != '/') := by
    intro c member
    rw [bne_iff_ne]
    rintro rfl
    exact valid.noSlash (mem_reverse.mp member)
  have stops : ∀ c ∈ (stem base).reverse.head?, (c != '/') = false := by
    rcases stem_eq_nil_or base with empty | ⟨front, slash⟩
    · simp [empty]
    · simp [slash]
  have reversed : (join base name).toList.reverse = name.toList.reverse ++ (stem base).reverse := by
    rw [toList_join, reverse_append]
  have taken : (name.toList.reverse ++ (stem base).reverse).takeWhile (· != '/') = name.toList.reverse := by
    rw [takeWhile_append_of_pos plain]
    cases shape : (stem base).reverse <;> simp_all
  have left : (name.toList.reverse ++ (stem base).reverse).dropWhile (· != '/') = (stem base).reverse := by
    rw [dropWhile_append_of_pos plain]
    cases shape : (stem base).reverse <;> simp_all
  have before : (stem base).reverse.contains '\n' = false := by
    simpa using oneLine_stem oneLine
  have first : (join base name).toList.reverse.head? ≠ some '/' := by
    obtain ⟨c, rest, shape⟩ := exists_cons_of_ne_nil (reverse_ne_nil_iff.mpr valid.ne_nil)
    have noSlash := plain c (by simp [shape])
    rw [reversed, shape]
    simpa using noSlash
  rw [isSkippableDirectory_of_open first, reversed, taken, left, before]
  simp

end IsName

end Path

/-! ## Places below a base -/

variable {base name : String} {place : List String}

def pathBelow (base : String) (place : List String) : String := Path.join base ("/".intercalate place)

theorem pathBelow_singleton (base name : String) : pathBelow base [name] = Path.join base name := rfl

theorem pathBelow_cons (valid : Path.IsName name) (below : place ≠ []) :
    pathBelow base (name :: place) = pathBelow (Path.join base name) place := by
  obtain ⟨next, rest, rfl⟩ := exists_cons_of_ne_nil below
  rw [pathBelow, pathBelow, valid.join_join]
  refine congrArg (Path.join base) (String.toList_inj.mp ?_)
  simp [String.toList_intercalate]

theorem pathBelow_inj {other : List String} (names : ∀ name ∈ place, Path.IsName name)
    (others : ∀ name ∈ other, Path.IsName name) (same : pathBelow base place = pathBelow base other) :
    place = other := by
  have back : ∀ {names : List String}, (∀ name ∈ names, Path.IsName name) →
      fields (· == '/') ("/".intercalate names).toList = names.map String.toList := by
    intro names valid
    rw [String.toList_intercalate]
    refine fields_intercalate rfl (by simp) fun word member => ?_
    obtain ⟨name, among, rfl⟩ := mem_map.mp member
    refine ⟨(valid name among).ne_nil, fun c inName => ?_⟩
    rw [beq_eq_false_iff_ne]
    rintro rfl
    exact (valid name among).noSlash inName
  have chars := back names
  rw [Path.join_inj same, back others] at chars
  exact (map_inj_right fun _ _ => String.toList_inj.mp).mp chars.symm

theorem parents_cons (below : place ≠ []) (name : String) :
    FileSystem.parents (name :: place) = [name] :: (FileSystem.parents place).map (name :: ·) := by
  obtain ⟨next, rest, rfl⟩ := exists_cons_of_ne_nil below
  simp [FileSystem.parents, range_succ_eq_map, Function.comp_def]

theorem ne_nil_of_mem_parents {between : List String} (member : between ∈ FileSystem.parents place) :
    between ≠ [] := by
  obtain ⟨n, small, rfl⟩ := mem_map.mp member
  rw [mem_range] at small
  have : 0 < place.length := by omega
  simpa using ne_nil_of_length_pos this

/-! ## Names that count -/

/-- No directory on the way to a place is passed over, nor is what stands there, all by their names. -/
def IsCounted (place : List String) : Prop :=
  (∀ name ∈ place.dropLast, name ∉ Path.specialDirectories ∧ Path.isSkippableName name = false) ∧
    ∀ name ∈ place.getLast?, Path.isSkippableName name = false

theorem isCounted_cons_iff (below : place ≠ []) :
    IsCounted (name :: place) ↔
      (name ∉ Path.specialDirectories ∧ Path.isSkippableName name = false) ∧ IsCounted place := by
  obtain ⟨next, rest, rfl⟩ := exists_cons_of_ne_nil below
  simp [IsCounted, and_assoc]

/-- The paths of the directories on the way to a place are short enough to be opened. -/
def CanBeReached (base : String) (place : List String) : Prop :=
  ∀ between ∈ FileSystem.parents place, (pathBelow base between).utf8ByteSize < FileSystem.pathLimit

theorem canBeReached_cons_iff (valid : Path.IsName name) (below : place ≠ []) :
    CanBeReached base (name :: place) ↔
      (Path.join base name).utf8ByteSize < FileSystem.pathLimit ∧ CanBeReached (Path.join base name) place := by
  rw [CanBeReached, parents_cons below, forall_mem_cons, forall_mem_map, pathBelow_singleton]
  refine and_congr_right fun _ => forall₂_congr fun between member => ?_
  rw [pathBelow_cons valid (ne_nil_of_mem_parents member)]

/-! ## Includes -/

namespace FileSystem

variable {files : FileSystem} {directory : List String} {path : String}

def HasNames (files : FileSystem) : Prop :=
  ∀ place ∈ files.entries.keys, ∀ name ∈ place, Path.IsName name

instance (files : FileSystem) : Decidable files.HasNames :=
  inferInstanceAs (Decidable (∀ place ∈ files.entries.keys, ∀ name ∈ place, Path.IsName name))

theorem HasNames.isName (names : files.HasNames) {entry : FileEntry}
    (found : files.entryAt (directory ++ place) = some entry) : ∀ name ∈ place, Path.IsName name :=
  fun name member =>
    have inWhole := mem_append_right directory member
    names _ (mem_keys_of_entryAt (ne_nil_of_mem inWhole) found) name inWhole

theorem follow_append (files : FileSystem) (place pieces rest : List String) :
    files.follow place (pieces ++ rest) = (files.follow place pieces).bind fun target => files.follow target rest := by
  fun_induction follow files place pieces <;> grind [follow, Except.bind]

theorem follow_name (valid : Path.IsName name) (isDirectory : files.isDirectoryAt directory)
    (present : (files.entryAt (directory ++ [name])).isSome) :
    files.follow directory [name] = .ok (directory ++ [name]) := by
  have short := Nat.not_lt.mpr valid.short
  simp [follow, isDirectory, present, valid.nonempty, valid.notHere, valid.notUp, short]

theorem resolve_eq_ok_iff :
    files.resolve path = .ok directory ↔ path ≠ "" ∧ '\x00' ∉ path.toList ∧ path.utf8ByteSize < pathLimit ∧
      files.follow (if Path.isAbsolute path then [] else files.workingDirectory) (Path.pieces path) = .ok directory := by
  unfold resolve
  by_cases empty : path = ""
  · simp [empty]
  · by_cases nul : '\x00' ∈ path.toList
    · simp [empty, nul]
    · by_cases long : pathLimit ≤ path.utf8ByteSize
      · simp [empty, nul, long, Nat.not_lt.mpr long]
      · simp [empty, nul, long, Nat.not_le.mp long]

/-- A name in a directory is found below the path of the directory, unless the whole is too long. -/
theorem resolve_join (valid : Path.IsName name) (leads : files.resolve base = .ok directory)
    (isDirectory : files.isDirectoryAt directory) (present : (files.entryAt (directory ++ [name])).isSome) :
    files.resolve (Path.join base name) =
      if (Path.join base name).utf8ByteSize < pathLimit then .ok (directory ++ [name]) else .error .nameTooLong := by
  obtain ⟨nonempty, noNul, _, followed⟩ := resolve_eq_ok_iff.mp leads
  have text := Path.toList_join base name
  have someText : Path.join base name ≠ "" := by
    intro same
    rw [same] at text
    simp [valid.nonempty] at text
  have plain : '\x00' ∉ (Path.join base name).toList := by
    rw [text, mem_append, not_or]
    refine ⟨?_, valid.noNul⟩
    unfold Path.stem
    split <;> simp [noNul]
  have sameStart : Path.isAbsolute (Path.join base name) = Path.isAbsolute base := by
    obtain ⟨c, rest, shape⟩ := exists_cons_of_ne_nil (String.toList_eq_nil_iff.not.mpr nonempty)
    simp only [Path.isAbsolute, text, Path.stem]
    split <;> simp [shape]
  obtain ⟨start, whole, above⟩ := valid.exists_pieces_join base
  have reached : files.follow (if Path.isAbsolute base then [] else files.workingDirectory) start = .ok directory := by
    rcases above with same | ended
    · rwa [← same]
    · rw [ended, follow_append] at followed
      cases found : files.follow (if Path.isAbsolute base then [] else files.workingDirectory) start with
      | error fault => simp [found, Except.bind] at followed
      | ok place =>
        have last : files.follow place [""] = .ok directory := by rwa [found] at followed
        rw [follow] at last
        split at last
        · cases last
        · exact last
  split
  next short =>
    refine resolve_eq_ok_iff.mpr ⟨someText, plain, short, ?_⟩
    rw [sameStart, whole, follow_append, reached]
    exact follow_name valid isDirectory present
  next long =>
    rw [resolve, if_neg (by simpa using someText), if_neg (by simpa using plain), if_pos (Nat.not_lt.mp long)]

/-- The places that an entry of a directory leads to, from those below each directory in it. -/
def walkedAt (base : String) (inner : String → List (List String)) : String × FileEntry → List (List String)
  | (name, .file _) => if Path.isSkippableName name then [] else [[name]]
  | (name, .directory) =>
    if Path.specialDirectories.contains name || Path.isSkippableName name ||
        pathLimit ≤ (Path.join base name).utf8ByteSize then []
    else (inner name).map (name :: ·)

/-- The places of the files that a walk comes to. -/
def walkedPlaces (files : FileSystem) : Nat → String → List String → List (List String)
  | 0, _, _ => []
  | depth + 1, base, directory =>
    (files.entriesIn directory).flatMap
      (walkedAt base fun name => walkedPlaces files depth (Path.join base name) (directory ++ [name]))

theorem mem_walkedAt {inner : String → List (List String)} {entry : FileEntry} :
    place ∈ walkedAt base inner (name, entry) ↔ Path.isSkippableName name = false ∧
      ((∃ content, entry = .file content ∧ place = [name]) ∨
        entry = .directory ∧ name ∉ Path.specialDirectories ∧
          (Path.join base name).utf8ByteSize < pathLimit ∧ ∃ rest ∈ inner name, place = name :: rest) := by
  cases entry with
  | file content => simp [walkedAt]
  | directory =>
    simp only [walkedAt, mem_ite_nil_left, Bool.or_eq_true, contains_iff_mem, decide_eq_true_eq, not_or,
      Bool.not_eq_true, Nat.not_le, mem_map]
    grind

theorem ne_nil_of_mem_walkedPlaces {depth : Nat} (member : place ∈ files.walkedPlaces depth base directory) :
    place ≠ [] := by
  cases depth with
  | zero => cases member
  | succ depth =>
    obtain ⟨⟨name, entry⟩, _, inside⟩ := mem_flatMap.mp member
    obtain ⟨_, ⟨_, _, rfl⟩ | ⟨_, _, _, rest, _, rfl⟩⟩ := mem_walkedAt.mp inside <;> simp

theorem walk_of_error {fault : FileFault} (failed : files.resolve path = .error fault) (depth : Nat) :
    files.walk depth path = [] := by
  cases depth with
  | zero => rfl
  | succ depth => simp [walk, openDirectory, failed]

theorem walk_eq (names : files.HasNames) (depth : Nat) (oneLine : '\n' ∉ base.toList)
    (leads : files.resolve base = .ok directory) (isDirectory : files.isDirectoryAt directory) :
    files.walk depth base = (files.walkedPlaces depth base directory).map (pathBelow base) := by
  induction depth generalizing base directory with
  | zero => rfl
  | succ depth ih =>
    have opened : files.openDirectory base = .ok (files.entriesIn directory) := by
      simp [openDirectory, leads, isDirectory]
    rw [walk, opened, walkedPlaces, map_flatMap]
    refine flatMap_congr fun ⟨name, entry⟩ member => ?_
    have present := mem_entriesIn.mp member
    have valid : Path.IsName name := names.isName present name mem_cons_self
    have inLine : '\n' ∉ (Path.join base name).toList := by
      rw [Path.toList_join, mem_append, not_or]
      exact ⟨Path.oneLine_stem oneLine, valid.oneLine⟩
    cases entry with
    | file content =>
      simp only [valid.isSkippableFile_join, walkedAt]
      split <;> rfl
    | directory =>
      have further := resolve_join valid leads isDirectory (by simp [present])
      simp only [valid.isSkippableFile_join, valid.isSkippableDirectory_join oneLine]
      by_cases skipped : Path.specialDirectories.contains name || Path.isSkippableName name
      · simp only [walkedAt, skipped, Bool.true_or, if_true, map_nil]
      · by_cases short : (Path.join base name).utf8ByteSize < pathLimit
        · rw [if_pos short] at further
          have inside : files.isDirectoryAt (directory ++ [name]) := by rw [isDirectoryAt, present]
          rw [if_neg skipped, walkedAt, if_neg (by simpa using ⟨by simpa using skipped, short⟩),
            ih inLine further inside, map_map]
          exact map_congr_left fun rest among => (pathBelow_cons valid (ne_nil_of_mem_walkedPlaces among)).symm
        · rw [if_neg short] at further
          rw [if_neg skipped, walk_of_error further, walkedAt, if_pos (by simp [Nat.not_lt.mp short])]
          rfl

theorem mem_walkedPlaces (tree : files.IsTree) (names : files.HasNames) (depth : Nat) :
    place ∈ files.walkedPlaces depth base directory ↔ place ≠ [] ∧ place.length ≤ depth ∧
      (∃ content, files.entryAt (directory ++ place) = some (.file content)) ∧ IsCounted place ∧
      CanBeReached base place := by
  induction depth generalizing place base directory with
  | zero => simp +contextual [walkedPlaces]
  | succ depth ih =>
    rw [walkedPlaces, mem_flatMap]
    constructor
    · rintro ⟨⟨name, entry⟩, member, inside⟩
      have present := mem_entriesIn.mp member
      have valid : Path.IsName name := names.isName present name mem_cons_self
      obtain ⟨counts, ⟨content, rfl, rfl⟩ | ⟨rfl, notSpecial, short, rest, among, rfl⟩⟩ := mem_walkedAt.mp inside
      · exact ⟨by simp, by simp, ⟨content, present⟩, by simp [IsCounted, counts],
          by simp [CanBeReached, FileSystem.parents]⟩
      · obtain ⟨below, within, ⟨content, isFile⟩, counted, reached⟩ := ih.mp among
        refine ⟨by simp, by simpa using within, ⟨content, by simpa using isFile⟩, ?_, ?_⟩
        · exact (isCounted_cons_iff below).mpr ⟨⟨notSpecial, counts⟩, counted⟩
        · exact (canBeReached_cons_iff valid below).mpr ⟨short, reached⟩
    · rintro ⟨below, within, ⟨content, isFile⟩, counted, reached⟩
      obtain ⟨name, rest, rfl⟩ := exists_cons_of_ne_nil below
      have valid : Path.IsName name := names.isName isFile name mem_cons_self
      by_cases last : rest = []
      · subst last
        have counts : Path.isSkippableName name = false := counted.2 name rfl
        exact ⟨(name, .file content), mem_entriesIn.mpr isFile, mem_walkedAt.mpr ⟨counts, .inl ⟨content, rfl, rfl⟩⟩⟩
      · have isFile' : files.entryAt ((directory ++ [name]) ++ rest) = some (.file content) := by simpa using isFile
        have inside := tree.isDirectoryAt_of_below last isFile'
        obtain ⟨⟨notSpecial, counts⟩, countedRest⟩ := (isCounted_cons_iff last).mp counted
        obtain ⟨short, reachedRest⟩ := (canBeReached_cons_iff valid last).mp reached
        have among : rest ∈ files.walkedPlaces depth (Path.join base name) (directory ++ [name]) :=
          ih.mpr ⟨last, by simpa using within, ⟨content, isFile'⟩, countedRest, reachedRest⟩
        refine ⟨(name, .directory), mem_entriesIn.mpr (entryAt_of_isDirectoryAt inside), mem_walkedAt.mpr ?_⟩
        exact ⟨counts, .inr ⟨rfl, notSpecial, short, rest, among, rfl⟩⟩

theorem pairwise_walkedPlaces (files : FileSystem) (depth : Nat) (base : String) (directory : List String) :
    (files.walkedPlaces depth base directory).Pairwise Precedes := by
  induction depth generalizing base directory with
  | zero => exact .nil
  | succ depth ih =>
    rw [walkedPlaces, pairwise_flatMap]
    constructor
    · rintro ⟨name, entry⟩ member
      cases entry with
      | file content =>
        rw [walkedAt]
        split
        · exact .nil
        · exact pairwise_singleton _ _
      | directory =>
        rw [walkedAt]
        split
        · exact .nil
        · exact pairwise_map.mpr ((ih _ _).imp fun precedes => precedes.cons name)
    · have start : ∀ {name entry place inner}, place ∈ walkedAt base inner (name, entry) → ∃ rest, place = name :: rest := by
        intro name entry place inner member
        obtain ⟨_, ⟨_, _, rfl⟩ | ⟨_, _, _, rest, _, rfl⟩⟩ := mem_walkedAt.mp member
        · exact ⟨[], rfl⟩
        · exact ⟨rest, rfl⟩
      refine (files.pairwise_entriesIn directory).imp ?_
      rintro ⟨name, entry⟩ ⟨next, other⟩ less place isFirst behind isSecond
      obtain ⟨rest, rfl⟩ := start isFirst
      obtain ⟨others, rfl⟩ := start isSecond
      exact ⟨[], name, next, rest, others, rfl, rfl, less⟩

theorem length_le_depth (below : place ≠ []) {entry : FileEntry}
    (found : files.entryAt (directory ++ place) = some entry) : place.length ≤ files.depth := by
  have member := mem_keys_of_entryAt (by simp [below]) found
  have whole := (sublist_flatten_of_mem member).length_le
  rw [length_append] at whole
  rw [depth]
  omega

theorem isDirectory_of_resolve (leads : files.resolve path = .ok directory)
    (isDirectory : files.isDirectoryAt directory) : files.isDirectory path := by
  unfold isDirectoryAt at isDirectory
  simp only [FileSystem.isDirectory, find?, leads]
  exact isDirectory

theorem piece_of_follow {pieces target : List String} (found : files.follow place pieces = .ok target) :
    ∀ piece ∈ pieces, piece = "" ∨ piece = "." ∨ piece = ".." ∨
      ∃ above, (files.entryAt (above ++ [piece])).isSome := by
  induction pieces generalizing place with
  | nil => simp
  | cons piece rest ih =>
    rw [follow] at found
    rw [forall_mem_cons]
    split at found
    · cases found
    · split at found
      next idle =>
        simp only [Bool.or_eq_true, String.isEmpty_iff, beq_iff_eq] at idle
        exact ⟨idle.imp_right .inl, ih found⟩
      · split at found
        next up => exact ⟨.inr (.inr (.inl (eq_of_beq up))), ih found⟩
        · split at found
          · cases found
          · split at found
            next isEntry => exact ⟨.inr (.inr (.inr ⟨place, isEntry⟩)), ih found⟩
            · cases found

theorem HasNames.oneLine_of_resolve (names : files.HasNames) (leads : files.resolve path = .ok directory) :
    '\n' ∉ path.toList := by
  obtain ⟨_, _, _, followed⟩ := resolve_eq_ok_iff.mp leads
  intro newline
  obtain ⟨piece, member, inPiece⟩ := exists_piece_of_mem newline (p := (· == '/')) rfl
  have kind := piece_of_follow followed (String.ofList piece) (mem_map_of_mem member)
  have inName : '\n' ∈ (String.ofList piece).toList := by rwa [String.toList_ofList]
  rcases kind with empty | here | up | ⟨above, isEntry⟩
  · simp [empty] at inName
  · simp [here] at inName
  · simp [up] at inName
  · obtain ⟨entry, found⟩ := Option.isSome_iff_exists.mp isEntry
    exact (names.isName found _ mem_cons_self).oneLine inName

/-! ### The root, behind many slashes -/

theorem utf8ByteSize_slashes (n : Nat) : (String.ofList (replicate n '/')).utf8ByteSize = n := by
  induction n with
  | zero => rfl
  | succ n ih =>
    rw [replicate_succ, String.ofList_cons, String.utf8ByteSize_append, ih, Nat.add_comm]
    rfl

theorem pieces_slashes (n : Nat) : Path.pieces (String.ofList (replicate n '/')) = replicate (n + 1) "" := by
  rw [Path.pieces, String.toList_ofList]
  induction n with
  | zero => rfl
  | succ n ih => exact congrArg ("" :: ·) ih

theorem follow_slashes (files : FileSystem) (n : Nat) : files.follow [] (replicate n "") = .ok [] := by
  induction n with
  | zero => rfl
  | succ n ih => exact ih

theorem isAbsolute_slashes (n : Nat) : Path.isAbsolute (String.ofList (replicate (n + 1) '/')) := by
  simp [Path.isAbsolute, replicate_succ]

theorem resolve_slashes {n : Nat} (short : n + 1 < pathLimit) :
    files.resolve (String.ofList (replicate (n + 1) '/')) = .ok [] := by
  refine resolve_eq_ok_iff.mpr ⟨by simp, by simp, by rwa [utf8ByteSize_slashes], ?_⟩
  rw [isAbsolute_slashes, pieces_slashes]
  exact follow_slashes files _

end FileSystem

namespace Inclusion

variable {inclusion : Inclusion} {files : FileSystem} {profileDir : String} {directory : List String}

end Inclusion

end ArmorPolicy
