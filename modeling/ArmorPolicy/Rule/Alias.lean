import ArmorPolicy.Line.Statement

/-!
# Aliases

`alias` lets one path stand for another.
-/

namespace ArmorPolicy

open Text Line

/-- Paths below `path` are also looked for below `target`. -/
structure Aliasing where
  path : String
  target : String
  deriving DecidableEq, Repr

namespace Aliasing

structure Parts where
  path : List Char
  target : List Char
  deriving DecidableEq, Repr

/-- The target after the arrow: the shortest text that a comma and the end of the line can
follow. -/
def destination? (s : List Char) : Option (List Char × String) :=
  (longest? isBlank (shortestPart? notNewline commaEnding?) s).map Prod.snd

def arrow? (s : List Char) : Option (List Char × String) :=
  ((afterBlanks? s).bind (after? "->")).bind destination?

/-- The path is the shortest text that the arrow can follow. -/
def read? : List Char → Option (Statement Parts) :=
  withoutModifiers fun s =>
    ((after? "alias" s).bind (longestPart? isBlank (shortestPart? notNewline arrow?))).map
      fun (_, path, target, comment) => (⟨path, target⟩, comment)

def make (base : RuleBase) (path target : String) : Checked Aliasing := do
  base.forbidModifiers .aliasing
  if path.isEmpty then reject .emptyAliasPath
  if path.toList.head? != some '/' then refuse (.aliasPathNotAbsolute path)
  if target.isEmpty then reject .emptyAliasTarget
  if target.toList.head? != some '/' then refuse (.aliasTargetNotAbsolute target)
  return { path, target }

def ofParts (base : RuleBase) (parts : Parts) : Checked Aliasing :=
  make base (String.ofList (stripQuotes parts.path)) (String.ofList (stripQuotes parts.target))

def text (aliasing : Aliasing) : String :=
  "alias " ++ quoteIfNeeded aliasing.path ++ " -> " ++ quoteIfNeeded aliasing.target

end Aliasing

end ArmorPolicy
