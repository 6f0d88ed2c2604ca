import ArmorPolicy.Rule.Basic

/-!
# Rulesets

A ruleset keeps its rules in the order in which they were added.  It is listed either as written, in
that order, or in canonical form, with denials first and each group sorted.  A rule can be removed when
an included file covers it, when an earlier rule that is kept covers it, or when a later one does.
-/

namespace ArmorPolicy

structure Ruleset where
  rules : List Rule := []
  deriving DecidableEq

inductive Layout where
  | canonical
  | asWritten
  deriving DecidableEq, Repr

namespace Ruleset

def empty : Ruleset := {}

instance : Inhabited Ruleset := ⟨empty⟩

def isEmpty (ruleset : Ruleset) : Bool := ruleset.rules.isEmpty

def size (ruleset : Ruleset) : Nat := ruleset.rules.length

def add (ruleset : Ruleset) (rule : Rule) : Ruleset := ⟨ruleset.rules ++ [rule]⟩

def append (ruleset other : Ruleset) : Ruleset := ⟨ruleset.rules ++ other.rules⟩

def map (f : Rule → Rule) (ruleset : Ruleset) : Ruleset := ⟨ruleset.rules.map f⟩

def ofKind (ruleset : Ruleset) (kind : RuleKind) : Ruleset :=
  ⟨ruleset.rules.filter fun rule => rule.kind == kind⟩

def inclusions (ruleset : Ruleset) : List Inclusion :=
  ruleset.rules.filterMap fun rule =>
    match rule.body with
    | .inclusion inclusion => some inclusion
    | _ => none

def covers (ruleset : Ruleset) (rule : Rule) (checkDecision checkAudit : Bool) : Bool :=
  ruleset.rules.any fun mine => mine.coversWith checkDecision checkAudit rule

/-- Whether some rule, allowing or denying, settles a request. -/
def settles (ruleset : Ruleset) (rule : Rule) : Bool := ruleset.covers rule false false

/-- Deletes all rules that say the same as a given one, of which there has to be one. -/
def delete (ruleset : Ruleset) (rule : Rule) : Checked Ruleset :=
  let kept := ruleset.rules.filter fun mine => !mine.sameAs false rule
  if kept.length = ruleset.rules.length then reject (.deletedMissing rule.kind rule.canonical)
  else .ok ⟨kept⟩

/-! ## Listing -/

/-- Sorts lines by their code points. -/
def sortLines (lines : List String) : List String :=
  lines.mergeSort fun a b => (compare a b).isLE

/-- A group of lines ends with an empty line, unless there is nothing in it. -/
def closeGroup (lines : List String) : List String :=
  if lines.isEmpty then [] else lines ++ [""]

def cleanLines (ruleset : Ruleset) (depth : Nat) : List String :=
  let group (deny : Bool) : List String :=
    (ruleset.rules.filter fun rule => rule.base.deny == deny).map fun rule => rule.clean depth
  closeGroup (sortLines (group true)) ++ closeGroup (sortLines (group false))

def rawLines (ruleset : Ruleset) (depth : Nat) : List String :=
  closeGroup (ruleset.rules.map fun rule => rule.raw depth)

def lines (layout : Layout) (ruleset : Ruleset) (depth : Nat) : List String :=
  match layout with
  | .canonical => ruleset.cleanLines depth
  | .asWritten => ruleset.rawLines depth

def sections (order : List RuleKind) (layout : Layout) (ruleset : Ruleset) (depth : Nat) :
    List String :=
  order.flatMap fun kind => (ruleset.ofKind kind).lines layout depth

def counts (ruleset : Ruleset) : List (RuleKind × Nat) :=
  (RuleKind.all.map fun kind => (kind, (ruleset.ofKind kind).size)).filter fun count =>
    count.2 != 0

end Ruleset

/-! ## Removing covered rules -/

structure DedupStats where
  before : Nat := 0
  byInclusion : Nat := 0
  internally : Nat := 0
  deriving DecidableEq, Repr

namespace DedupStats

def removed (stats : DedupStats) : Nat := stats.byInclusion + stats.internally

def kept (stats : DedupStats) : Nat := stats.before - stats.removed

end DedupStats

/-- Keeps, from the first on, the members that no member kept so far covers. -/
def keepUncovered {α : Type} (covers : α → α → Bool) (members : List α) : List α :=
  members.foldl (fun kept a => if kept.any (covers · a) then kept else kept ++ [a]) []

/-- Removes what is covered from the front, then what is covered from the back. -/
def irredundant {α : Type} (covers : α → α → Bool) (members : List α) : List α :=
  (keepUncovered covers (keepUncovered covers members).reverse).reverse

namespace Ruleset

/-- Removes the rules that `included` covers and those that other rules cover.  Decisions and audits
have to agree. -/
def dedup (ruleset : Ruleset) (included : Option Ruleset) : Ruleset × DedupStats :=
  let remaining := match included with
    | none => ruleset.rules
    | some included => ruleset.rules.filter fun rule => !included.covers rule true true
  let kept := irredundant (Rule.coversWith true true) remaining
  (⟨kept⟩,
    { before := ruleset.rules.length
      byInclusion := ruleset.rules.length - remaining.length
      internally := remaining.length - kept.length })

end Ruleset

end ArmorPolicy
