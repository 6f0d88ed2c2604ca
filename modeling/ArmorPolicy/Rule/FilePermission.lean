import ArmorPolicy.Data.SortedSet
import ArmorPolicy.Error
import ArmorPolicy.Line.Basic

/-!
# Permissions on files

A permission string is a run of letters: plain permissions, and the letters of at most one execute
mode.  It is decoded into a set and a mode, and encoded in one fixed order.
-/

namespace ArmorPolicy

open Line

/-! ## Plain permissions -/

/-- Plain permissions, in the order in which they are written. -/
inductive FilePermission where
  | map
  | read
  | write
  | append
  | link
  | lock
  deriving DecidableEq, Repr

namespace FilePermission

def letter : FilePermission → Char
  | .map => 'm'
  | .read => 'r'
  | .write => 'w'
  | .append => 'a'
  | .link => 'l'
  | .lock => 'k'

def all : List FilePermission := [.map, .read, .write, .append, .link, .lock]

theorem mem_all (permission : FilePermission) : permission ∈ all := by
  cases permission <;> decide

def ofLetter? (c : Char) : Option FilePermission :=
  all.find? fun permission => permission.letter == c

end FilePermission

structure FilePermissions where
  map : Bool := false
  read : Bool := false
  write : Bool := false
  append : Bool := false
  link : Bool := false
  lock : Bool := false
  deriving DecidableEq, Repr

namespace FilePermissions

def contains (permissions : FilePermissions) : FilePermission → Bool
  | .map => permissions.map
  | .read => permissions.read
  | .write => permissions.write
  | .append => permissions.append
  | .link => permissions.link
  | .lock => permissions.lock

def insert (permissions : FilePermissions) : FilePermission → FilePermissions
  | .map => { permissions with map := true }
  | .read => { permissions with read := true }
  | .write => { permissions with write := true }
  | .append => { permissions with append := true }
  | .link => { permissions with link := true }
  | .lock => { permissions with lock := true }

@[simp]
theorem contains_insert (permissions : FilePermissions) (new old : FilePermission) :
    (permissions.insert new).contains old = (old == new || permissions.contains old) := by
  cases new <;> cases old <;> rfl

def empty : FilePermissions := {}

def isEmpty (permissions : FilePermissions) : Bool := permissions == empty

def toList (permissions : FilePermissions) : List FilePermission :=
  FilePermission.all.filter permissions.contains

def size (permissions : FilePermissions) : Nat := permissions.toList.length

def union (permissions other : FilePermissions) : FilePermissions :=
  other.toList.foldl insert permissions

/-- The set of permissions with given letters; the first letter without a permission is reported. -/
def ofLetters (letters : SortedSet Char) : Checked FilePermissions :=
  letters.toList.foldlM
    (fun permissions c =>
      match FilePermission.ofLetter? c with
      | some permission => .ok (permissions.insert permission)
      | none => reject (.unknownPermission c))
    empty

/-- The letters in the order in which they are written.  Writing includes appending, so that its
letter is left out. -/
def letters (permissions : FilePermissions) : List Char :=
  (permissions.toList.filter fun permission =>
    !(permission == .append && permissions.write)).map FilePermission.letter

/-- Every permission of `other` is granted; writing grants appending. -/
def covers (permissions other : FilePermissions) : Bool :=
  other.toList.all fun permission =>
    permissions.contains permission || (permission == .append && permissions.write)

end FilePermissions

/-! ## Execute modes -/

/-- How a file is executed: under a denial (`x`), with the profile inherited (`i`), unconfined
(`u`), under a profile of its own (`p`) or a child profile (`c`), with a fallback for the last
two; capital letters scrub the environment. -/
inductive ExecMode where
  | x
  | ix
  | ux
  | Ux
  | px
  | Px
  | cx
  | Cx
  | pix
  | Pix
  | cix
  | Cix
  | pux
  | PUx
  | cux
  | CUx
  deriving DecidableEq, Repr

namespace ExecMode

def name : ExecMode → String
  | .x => "x"
  | .ix => "ix"
  | .ux => "ux"
  | .Ux => "Ux"
  | .px => "px"
  | .Px => "Px"
  | .cx => "cx"
  | .Cx => "Cx"
  | .pix => "pix"
  | .Pix => "Pix"
  | .cix => "cix"
  | .Cix => "Cix"
  | .pux => "pux"
  | .PUx => "PUx"
  | .cux => "cux"
  | .CUx => "CUx"

/-- The modes that say what becomes of the profile, those with a fallback first. -/
def transitions : List ExecMode :=
  [.pix, .Pix, .cix, .Cix, .pux, .PUx, .cux, .CUx, .ix, .ux, .Ux, .px, .Px, .cx, .Cx]

def ofName? (name : String) : Option ExecMode :=
  (.x :: transitions).find? fun mode => mode.name == name

def readAt? (s : List Char) : Option (ExecMode × List Char) :=
  transitions.findSome? fun mode => (after? mode.name s).map fun rest => (mode, rest)

end ExecMode

/-! ## Permission strings -/

structure FileAccess where
  permissions : FilePermissions := {}
  exec : Option ExecMode := none
  deriving DecidableEq, Repr

namespace FileAccess

/-- Adds a mode, which must be the one that is there already. -/
def withExec (access : FileAccess) (mode : ExecMode) : Checked FileAccess :=
  match access.exec with
  | none => .ok { access with exec := some mode }
  | some first =>
    if first = mode then .ok access else refuse (.conflictingExec first.name mode.name)

theorem length_afterChars? {word s rest : List Char} (found : afterChars? word s = some rest) :
    rest.length + word.length = s.length := by
  induction word generalizing s with
  | nil => cases found; simp
  | cons w word ih =>
    cases s with
    | nil => simp [afterChars?] at found
    | cons c s =>
      simp only [afterChars?] at found
      split at found
      next => simp only [List.length_cons]; have := ih found; omega
      next => cases found

theorem length_readAt? {s rest : List Char} {mode : ExecMode}
    (found : ExecMode.readAt? s = some (mode, rest)) : rest.length < s.length := by
  obtain ⟨candidate, _, found⟩ := List.exists_of_findSome?_eq_some found
  cases inner : after? candidate.name s with
  | none => rw [inner] at found; cases found
  | some tail =>
    rw [inner] at found
    cases found
    have := length_afterChars? inner
    have : 0 < mode.name.toList.length := by cases mode <;> decide
    omega

def readFrom (deny : Bool) (access : FileAccess) (s : List Char) : Checked FileAccess :=
  match s with
  | [] => .ok access
  | c :: rest =>
    match FilePermission.ofLetter? c with
    | some permission =>
      readFrom deny { access with permissions := access.permissions.insert permission } rest
    | none =>
      if c = 'x' then
        if deny then do readFrom deny (← access.withExec .x) rest
        else refuse .bareExec
      else
        match found : ExecMode.readAt? (c :: rest) with
        | some (mode, tail) =>
          have : tail.length ≤ rest.length := Nat.le_of_lt_succ (length_readAt? found)
          do readFrom deny (← access.withExec mode) tail
        | none => refuse (.unknownPermissions (String.ofList (c :: rest)))
termination_by s.length

/-- Decodes a permission string.  Only a denial may have the mode `x`. -/
def read (letters : List Char) (deny : Bool) : Checked FileAccess := readFrom deny {} letters

end FileAccess

end ArmorPolicy
