import ArmorPolicy.Line.Statement

/-!
# Freeform statements

Mount, remount, umount, pivot_root and unix statements are only kept as text, with their blanks
folded.
-/

namespace ArmorPolicy

open Text Line

/-- A statement of which only the keyword is understood. -/
structure Freeform where
  keyword : String
  body : String
  deriving DecidableEq, Repr

namespace Freeform

def keywords : List String := ["mount", "remount", "umount", "unmount", "pivot_root", "unix"]

structure Parts where
  keyword : String
  body : List Char
  deriving DecidableEq, Repr

/-- The body has no comment sign in it. -/
def read? : List Char → Option (Statement Parts) :=
  withModifiers fun s =>
    keywords.findSome? fun keyword =>
      (after? keyword s).bind fun s =>
        (body? (· != '#') s).map fun (body, comment) => (⟨keyword, body⟩, comment)

def make (keyword body : String) : Freeform := ⟨keyword, spaced (wordsOf body)⟩

def ofParts (parts : Parts) : Freeform := make parts.keyword (String.ofList parts.body)

def text (freeform : Freeform) : String :=
  freeform.keyword ++ if freeform.body.isEmpty then "" else " " ++ freeform.body

end Freeform

end ArmorPolicy
