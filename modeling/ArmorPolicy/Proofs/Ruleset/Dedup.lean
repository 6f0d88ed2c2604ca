import ArmorPolicy.Proofs.Rule.Coverage
import ArmorPolicy.Ruleset.Basic

/-!
# Removing covered rules loses nothing

A rule that the pass from the front removes is covered by one that this pass keeps, and the pass
from the back may remove that one in turn.  Since coverage goes on, a rule that is kept in the end
covers whatever a removed one covers.  The rules that are left keep their order.  No included rule covers
one of them, and none of them covers another one.  This holds for all patterns, although coverage does
not go on where there are wildcards: neither pass brings back what the other one has removed.
-/

namespace ArmorPolicy

open List

/-! ## One pass -/

section Pass

variable {α : Type} (covers : α → α → Bool)

def keepStep (kept : List α) (a : α) : List α :=
  if kept.any (covers · a) then kept else kept ++ [a]

theorem keepUncovered_eq (members : List α) :
    keepUncovered covers members = members.foldl (keepStep covers) [] := rfl

theorem subset_keepStep (kept : List α) (a : α) : kept ⊆ keepStep covers kept a := by
  unfold keepStep
  split
  · exact List.Subset.refl kept
  · exact subset_append_left kept [a]

theorem mem_or_covered_keepStep (kept : List α) (a : α) :
    a ∈ keepStep covers kept a ∨ ∃ b ∈ keepStep covers kept a, covers b a := by
  unfold keepStep
  split
  next found => exact .inr (any_eq_true.mp found)
  · exact .inl (by simp)

theorem foldl_keepStep (members kept : List α) :
    kept ⊆ members.foldl (keepStep covers) kept ∧
      ∀ a ∈ members, a ∈ members.foldl (keepStep covers) kept ∨
        ∃ b ∈ members.foldl (keepStep covers) kept, covers b a := by
  induction members generalizing kept with
  | nil => simp
  | cons a members ih =>
    obtain ⟨grows, handled⟩ := ih (keepStep covers kept a)
    refine ⟨Subset.trans (subset_keepStep covers kept a) grows, ?_⟩
    intro b member
    rcases mem_cons.mp member with rfl | member
    · rcases mem_or_covered_keepStep covers kept b with here | ⟨c, here, covered⟩
      · exact .inl (grows here)
      · exact .inr ⟨c, grows here, covered⟩
    · exact handled b member

theorem foldl_keepStep_sublist (members kept : List α) :
    (members.foldl (keepStep covers) kept).Sublist (kept ++ members) := by
  induction members generalizing kept with
  | nil => simp
  | cons a members ih =>
    rw [foldl_cons]
    refine (ih (keepStep covers kept a)).trans ?_
    unfold keepStep
    split
    · exact (sublist_cons_self a members).append_left kept
    · simp

theorem keepUncovered_sublist (members : List α) : (keepUncovered covers members).Sublist members := by
  simpa [keepUncovered_eq] using foldl_keepStep_sublist covers members []

theorem keepUncovered_subset (members : List α) : keepUncovered covers members ⊆ members :=
  (keepUncovered_sublist covers members).subset

def Uncovered (members : List α) : Prop := members.Pairwise fun a b => covers a b = false

theorem uncovered_foldl_keepStep (members : List α) {kept : List α} (apart : Uncovered covers kept) :
    Uncovered covers (members.foldl (keepStep covers) kept) := by
  induction members generalizing kept with
  | nil => exact apart
  | cons a members ih =>
    refine ih ?_
    unfold keepStep
    split
    · exact apart
    next uncovered =>
      refine pairwise_append.mpr ⟨apart, pairwise_singleton _ _, fun b among c here => ?_⟩
      rw [mem_singleton.mp here]
      exact Bool.eq_false_iff.mpr fun covered => uncovered (any_eq_true.mpr ⟨b, among, covered⟩)

theorem uncovered_keepUncovered (members : List α) : Uncovered covers (keepUncovered covers members) :=
  uncovered_foldl_keepStep covers members List.Pairwise.nil

theorem foldl_keepStep_of_uncovered {members kept : List α} (apart : Uncovered covers (kept ++ members)) :
    members.foldl (keepStep covers) kept = kept ++ members := by
  induction members generalizing kept with
  | nil => simp
  | cons a members ih =>
    have free : kept.any (covers · a) = false := by
      rw [any_eq_false]
      intro b among
      rw [(pairwise_append.mp apart).2.2 b among a mem_cons_self]
      exact Bool.false_ne_true
    rw [foldl_cons, keepStep, if_neg (by simp [free]), ih (by simpa using apart)]
    simp

theorem keepUncovered_of_uncovered {members : List α} (apart : Uncovered covers members) :
    keepUncovered covers members = members :=
  @foldl_keepStep_of_uncovered α covers members [] apart

theorem mem_or_covered_keepUncovered {members : List α} {a : α} (member : a ∈ members) :
    a ∈ keepUncovered covers members ∨ ∃ b ∈ keepUncovered covers members, covers b a :=
  (foldl_keepStep covers members []).2 a member

/-! ## Both passes -/

theorem irredundant_sublist_front (members : List α) :
    (irredundant covers members).Sublist (keepUncovered covers members) := by
  have back := (keepUncovered_sublist covers (keepUncovered covers members).reverse).reverse
  rwa [reverse_reverse] at back

theorem irredundant_sublist (members : List α) : (irredundant covers members).Sublist members :=
  (irredundant_sublist_front covers members).trans (keepUncovered_sublist covers members)

theorem irredundant_subset (members : List α) : irredundant covers members ⊆ members :=
  (irredundant_sublist covers members).subset

/-- Nothing that is kept covers something else that is kept: the first pass sees to the later ones, the
second to the earlier ones. -/
theorem uncovered_irredundant (members : List α) :
    Uncovered covers (irredundant covers members) ∧
      Uncovered covers (irredundant covers members).reverse := by
  refine ⟨(uncovered_keepUncovered covers members).sublist (irredundant_sublist_front covers members), ?_⟩
  rw [irredundant, reverse_reverse]
  exact uncovered_keepUncovered covers _

theorem irredundant_irredundant (members : List α) :
    irredundant covers (irredundant covers members) = irredundant covers members := by
  obtain ⟨later, earlier⟩ := uncovered_irredundant covers members
  rw [irredundant, keepUncovered_of_uncovered covers later, keepUncovered_of_uncovered covers earlier,
    reverse_reverse]

/-- What holds of everything that covers a member holds of something that is kept.  The witness goes
from the member to a rule of the first pass and from there to one of the second. -/
theorem exists_mem_irredundant {members : List α} {P : α → Prop}
    (passesOn : ∀ a ∈ members, ∀ b ∈ members, covers b a → P a → P b) {a : α}
    (member : a ∈ members) (holds : P a) : ∃ b ∈ irredundant covers members, P b := by
  obtain ⟨b, front, holdsFront⟩ : ∃ b ∈ keepUncovered covers members, P b := by
    rcases mem_or_covered_keepUncovered covers member with here | ⟨b, here, covered⟩
    · exact ⟨a, here, holds⟩
    · exact ⟨b, here, passesOn a member b (keepUncovered_subset covers _ here) covered holds⟩
  have frontMember := keepUncovered_subset covers _ front
  rcases mem_or_covered_keepUncovered covers (mem_reverse.mpr front) with here | ⟨c, here, covered⟩
  · exact ⟨b, mem_reverse.mpr here, holdsFront⟩
  · have inFront := mem_reverse.mp (keepUncovered_subset covers _ here)
    have cMember := keepUncovered_subset covers _ inFront
    exact ⟨c, mem_reverse.mpr here, passesOn b frontMember c cMember covered holdsFront⟩

theorem pairwise_irredundant (members : List α) :
    (irredundant covers members).Pairwise fun a b => covers a b = false ∧ covers b a = false := by
  obtain ⟨later, earlier⟩ := uncovered_irredundant covers members
  exact List.Pairwise.and later (pairwise_reverse.mp earlier)

end Pass

namespace Ruleset

theorem covers_eq_true_iff {ruleset : Ruleset} {query : Rule} {checkDecision checkAudit : Bool} :
    ruleset.covers query checkDecision checkAudit ↔
      ∃ rule ∈ ruleset.rules, rule.coversWith checkDecision checkAudit query :=
  any_eq_true

theorem dedup_subset (ruleset : Ruleset) (included : Option Ruleset) :
    (ruleset.dedup included).1.rules ⊆ ruleset.rules := by
  intro rule member
  have remains := irredundant_subset _ _ member
  cases included with
  | none => exact remains
  | some included => exact (mem_filter.mp remains).1

/-- Together with the included rules, what is kept covers exactly what was covered before.  The
rules may be of one kind or of several, and the query may be any rule. -/
theorem covers_dedup_iff (ruleset included : Ruleset)
    (events : ∀ rule ∈ ruleset.rules ++ included.rules, rule.Built ∧ rule.OfEvents) (query : Rule)
    (checkDecision checkAudit : Bool) :
    (ruleset.covers query checkDecision checkAudit = true ∨
        included.covers query checkDecision checkAudit = true) ↔
      ((ruleset.dedup (some included)).1.covers query checkDecision checkAudit = true ∨
        included.covers query checkDecision checkAudit = true) := by
  have passesOn : ∀ rule ∈ ruleset.rules ++ included.rules,
      ∀ other ∈ ruleset.rules ++ included.rules, other.coversWith true true rule = true →
        rule.coversWith checkDecision checkAudit query = true →
          other.coversWith checkDecision checkAudit query = true := by
    intro rule member other otherMember first second
    exact Rule.coversWith_trans (events other otherMember).1 (events rule member).1
      (events other otherMember).2 (events rule member).2 first second
  simp only [covers_eq_true_iff]
  constructor
  · rintro (⟨rule, member, covered⟩ | byIncluded)
    · by_cases taken : included.covers rule true true = true
      · obtain ⟨other, otherMember, first⟩ := covers_eq_true_iff.mp taken
        exact .inr ⟨other, otherMember, passesOn rule (by simp [member]) other
          (by simp [otherMember]) first covered⟩
      · have remains : rule ∈ ruleset.rules.filter fun rule => !included.covers rule true true := by
          simp [member, taken]
        refine .inl (exists_mem_irredundant (Rule.coversWith true true) ?_ remains covered)
        intro first firstMember second secondMember
        have firstIn := (mem_filter.mp firstMember).1
        have secondIn := (mem_filter.mp secondMember).1
        exact passesOn first (by simp [firstIn]) second (by simp [secondIn])
    · exact .inr byIncluded
  · rintro (⟨rule, member, covered⟩ | byIncluded)
    · exact .inl ⟨rule, dedup_subset ruleset (some included) member, covered⟩
    · exact .inr byIncluded

/-- Reading is covered by tracing the same peer, and tracing by the included rule. -/
theorem covers_dedup_iff_ptrace :
    let peer : Extent Pattern := .only ⟨"/bin/ping", some "/bin/ping"⟩
    let read : Rule := ⟨{}, .ptrace ⟨.only (.singleton "read"), peer⟩⟩
    let trace : Rule := ⟨{}, .ptrace ⟨.only (.singleton "trace"), peer⟩⟩
    let everything : Rule := ⟨{}, .ptrace ⟨.all, .all⟩⟩
    (∀ rule ∈ [read, trace] ++ [everything], rule.Built ∧ rule.OfEvents) ∧
      ∀ (query : Rule) (checkDecision checkAudit : Bool),
        ((⟨[read, trace]⟩ : Ruleset).covers query checkDecision checkAudit = true ∨
            (⟨[everything]⟩ : Ruleset).covers query checkDecision checkAudit = true) ↔
          (((⟨[read, trace]⟩ : Ruleset).dedup (some ⟨[everything]⟩)).1.covers query checkDecision
              checkAudit = true ∨
            (⟨[everything]⟩ : Ruleset).covers query checkDecision checkAudit = true) := by
  intro peer read trace everything
  have event : peer.OfEvent := by
    intro pattern same
    rw [← Extent.only.inj same]
    exact ⟨"/bin/ping", true, rfl⟩
  have readMade : Ptrace.make (.only (.singleton "read")) peer =
      .ok ⟨.only (.singleton "read"), peer⟩ := rfl
  have traceMade : Ptrace.make (.only (.singleton "trace")) peer =
      .ok ⟨.only (.singleton "trace"), peer⟩ := rfl
  have events : ∀ rule ∈ [read, trace] ++ [everything], rule.Built ∧ rule.OfEvents := by
    intro rule member
    simp only [cons_append, nil_append, mem_cons, not_mem_nil, or_false] at member
    rcases member with rfl | rfl | rfl
    · exact ⟨.ptrace readMade, by simpa [Rule.OfEvents, RuleBody.patterns, read] using event⟩
    · exact ⟨.ptrace traceMade, by simpa [Rule.OfEvents, RuleBody.patterns, trace] using event⟩
    · refine ⟨.ptrace (rfl : Ptrace.make .all .all = .ok ⟨.all, .all⟩), ?_⟩
      simp [Rule.OfEvents, RuleBody.patterns, everything, Extent.OfEvent]
  exact ⟨events, covers_dedup_iff ⟨[read, trace]⟩ ⟨[everything]⟩ events⟩

/-! ## What is left -/

def coveredBy (included : Option Ruleset) (rule : Rule) : Bool :=
  included.any fun given => given.covers rule true true

def remaining (ruleset : Ruleset) (included : Option Ruleset) : List Rule :=
  ruleset.rules.filter fun rule => !coveredBy included rule

theorem dedup_eq (ruleset : Ruleset) (included : Option Ruleset) :
    let kept := irredundant (Rule.coversWith true true) (ruleset.remaining included)
    ruleset.dedup included =
      (⟨kept⟩,
        { before := ruleset.rules.length
          byInclusion := ruleset.rules.length - (ruleset.remaining included).length
          internally := (ruleset.remaining included).length - kept.length }) := by
  cases included with
  | none =>
    have all : ruleset.remaining none = ruleset.rules := filter_eq_self.mpr fun _ _ => rfl
    simp [dedup, all]
  | some given => rfl

theorem rules_dedup (ruleset : Ruleset) (included : Option Ruleset) :
    (ruleset.dedup included).1.rules =
      irredundant (Rule.coversWith true true) (ruleset.remaining included) := by
  rw [dedup_eq]

/-! ## The rules that are left -/

theorem dedup_sublist (ruleset : Ruleset) (included : Option Ruleset) :
    (ruleset.dedup included).1.rules.Sublist ruleset.rules := by
  rw [rules_dedup]
  exact (irredundant_sublist _ _).trans filter_sublist

theorem coveredBy_of_mem_dedup {ruleset : Ruleset} {included : Option Ruleset} {rule : Rule}
    (member : rule ∈ (ruleset.dedup included).1.rules) : coveredBy included rule = false := by
  rw [rules_dedup] at member
  have remains := (mem_filter.mp (irredundant_subset _ _ member)).2
  simpa using remains

theorem remaining_dedup (ruleset : Ruleset) (included : Option Ruleset) :
    (ruleset.dedup included).1.remaining included = (ruleset.dedup included).1.rules := by
  refine filter_eq_self.mpr fun rule member => ?_
  rw [coveredBy_of_mem_dedup member]
  rfl

theorem dedup_dedup (ruleset : Ruleset) (included : Option Ruleset) :
    let kept := (ruleset.dedup included).1
    kept.dedup included = (kept, { before := kept.size }) := by
  intro kept
  have same : irredundant (Rule.coversWith true true) kept.rules = kept.rules := by
    rw [rules_dedup, irredundant_irredundant]
  simp only [dedup_eq kept, remaining_dedup ruleset included, kept, same, Nat.sub_self]
  rfl

/-! ## The numbers of rules -/

theorem byInclusion_dedup (ruleset : Ruleset) (included : Option Ruleset) :
    (ruleset.dedup included).2.byInclusion = ruleset.rules.countP (coveredBy included) := by
  have parts := length_eq_countP_add_countP (coveredBy included) (l := ruleset.rules)
  have uncovered : (ruleset.remaining included).length =
      ruleset.rules.countP fun rule => !coveredBy included rule := by
    rw [remaining, countP_eq_length_filter]
  rw [dedup_eq]
  simp only [uncovered]
  simp only [Bool.not_eq_true, Bool.decide_eq_false] at parts
  omega

theorem kept_dedup (ruleset : Ruleset) (included : Option Ruleset) :
    (ruleset.dedup included).2.kept = (ruleset.dedup included).1.size := by
  have fewer : (ruleset.remaining included).length ≤ ruleset.rules.length := length_filter_le _ _
  have fewest := (irredundant_sublist (Rule.coversWith true true) (ruleset.remaining included)).length_le
  rw [dedup_eq]
  simp only [DedupStats.kept, DedupStats.removed, size]
  omega

/-- The rules that are left stand in their order, no included rule covers one of them, and no two of them
cover each other either way.  Removing again removes nothing.  The numbers say how many rules there
were, how many of them an included rule covers, and how many are left. -/
theorem dedup_remainder (ruleset : Ruleset) (included : Option Ruleset) :
    let kept := (ruleset.dedup included).1
    let stats := (ruleset.dedup included).2
    kept.rules.Sublist ruleset.rules ∧
      (∀ rule ∈ kept.rules, coveredBy included rule = false) ∧
      (kept.rules.Pairwise fun rule other =>
        rule.coversWith true true other = false ∧ other.coversWith true true rule = false) ∧
      kept.dedup included = (kept, { before := kept.size, byInclusion := 0, internally := 0 }) ∧
      stats.before = ruleset.size ∧
      stats.byInclusion = ruleset.rules.countP (coveredBy included) ∧
      stats.kept = kept.size := by
  refine ⟨dedup_sublist ruleset included, fun rule => coveredBy_of_mem_dedup, ?_,
    dedup_dedup ruleset included, ?_, byInclusion_dedup ruleset included, kept_dedup ruleset included⟩
  · rw [rules_dedup]
    exact pairwise_irredundant _ _
  · rw [dedup_eq]
    rfl

end Ruleset

end ArmorPolicy
