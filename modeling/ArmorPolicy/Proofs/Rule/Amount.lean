import ArmorPolicy.Proofs.Rule.Rlimit
import ArmorPolicy.Proofs.Rule.Sameness
import Mathlib.Data.Nat.Digits.Defs

/-!
# Amounts of limits

A number with a unit stands for the exact product of the number and the factor of the unit.  A
product that needs more than 64 bits, or a unit that the resource does not have, is refused.  Limits
on one resource can always be compared, and two limits that cover each other are the same.
-/

namespace ArmorPolicy

open List Text Line

/-! ## Units -/

namespace Rlimit

variable {resource unit : String} {measure : Measure} {number factor : Nat}
  {digits blanks letters : List Char}

def sizeUnits : List (String × Nat) :=
  [("K", 2 ^ 10), ("KB", 2 ^ 10), ("M", 2 ^ 20), ("MB", 2 ^ 20), ("G", 2 ^ 30), ("GB", 2 ^ 30)]

def timeUnits : List (String × Nat) :=
  let second := 10 ^ 6
  let hour := 3600 * second
  [("us", 1), ("ms", 10 ^ 3), ("s", second), ("sec", second), ("seconds", second),
    ("min", 60 * second), ("minutes", 60 * second), ("h", hour), ("hours", hour),
    ("d", 24 * hour), ("days", 24 * hour), ("week", 7 * 24 * hour), ("weeks", 7 * 24 * hour)]

/-- The units that a resource allows, each with how many of the smallest unit it has; the empty text
is for a number without a unit. -/
def units (resource : String) : List (String × Nat) :=
  if resource ∈ sizes then ("", 1) :: sizeUnits
  else if resource ∈ counts then [("", 1)]
  else if resource = "rttime" then ("", 1) :: timeUnits
  else if resource = "cpu" then ("", 10 ^ 6) :: timeUnits
  else []

theorem sizeFactor?_eq_some_iff : sizeFactor? unit = some factor ↔ (unit, factor) ∈ ("", 1) :: sizeUnits := by
  constructor
  · intro found
    simp only [sizeFactor?, Bool.or_eq_true, beq_iff_eq] at found
    repeat' (split at found)
    all_goals simp_all [sizeUnits]
    all_goals tauto
  · have listed : ∀ entry ∈ ("", 1) :: sizeUnits, sizeFactor? entry.1 = some entry.2 := by decide
    exact listed (unit, factor)

theorem timeFactor?_eq_some_iff :
    timeFactor? unit = some factor ↔ (unit, factor) ∈ ("", 10 ^ 6) :: timeUnits := by
  constructor
  · intro found
    simp only [timeFactor?, Bool.or_eq_true, beq_iff_eq] at found
    repeat' (split at found)
    all_goals simp_all [timeUnits]
    all_goals tauto
  · have listed : ∀ entry ∈ ("", 10 ^ 6) :: timeUnits, timeFactor? entry.1 = some entry.2 := by decide
    exact listed (unit, factor)

theorem measure?_eq_some (measured : measure? resource = some measure) :
    (measure = .size ∧ resource ∈ sizes) ∨ (measure = .count ∧ resource ∈ counts ∧ resource ∉ sizes) ∨
      (measure = .time ∧ (resource = "cpu" ∨ resource = "rttime")) ∨ measure = .nice ∧ resource = "nice" := by
  simp only [measure?, contains_iff_mem, beq_iff_eq] at measured
  repeat' (split at measured)
  all_goals simp_all [times]

theorem measure?_of_mem (known : resource ∈ sizes ++ counts ++ times) :
    ∃ measure, measure? resource = some measure ∧ measure ≠ .nice := by
  simp only [mem_append] at known
  simp only [measure?, contains_iff_mem]
  split
  · exact ⟨_, rfl, by decide⟩
  next notSize =>
    split
    · exact ⟨_, rfl, by decide⟩
    next notCount =>
      rw [if_pos (known.resolve_left (not_or.mpr ⟨notSize, notCount⟩))]
      exact ⟨_, rfl, by decide⟩

theorem factor?_eq_some_iff (measured : measure? resource = some measure) :
    factor? resource measure unit = some factor ↔ (unit, factor) ∈ units resource := by
  rcases measure?_eq_some measured with ⟨rfl, size⟩ | ⟨rfl, count, notSize⟩ | ⟨rfl, rfl | rfl⟩ | ⟨rfl, rfl⟩
  · simpa [factor?, units, size] using sizeFactor?_eq_some_iff
  · have table : units resource = [("", 1)] := by simp [units, notSize, count]
    by_cases plain : unit = ""
    · simp [factor?, table, plain, eq_comm]
    · simp [factor?, table, plain]
  · have table : units "cpu" = ("", 10 ^ 6) :: timeUnits := by decide
    simpa [factor?, table] using timeFactor?_eq_some_iff
  · have table : units "rttime" = ("", 1) :: timeUnits := by decide
    by_cases plain : unit = ""
    · have named : ∀ entry ∈ timeUnits, entry.1 ≠ "" := by decide
      have absent : ("", factor) ∉ timeUnits := fun listed => named _ listed rfl
      simp [factor?, table, plain, absent, eq_comm]
    · have other : timeFactor? unit = some factor ↔ (unit, factor) ∈ ("", 10 ^ 6) :: timeUnits :=
        timeFactor?_eq_some_iff
      simpa [factor?, table, plain] using other
  · have table : units "nice" = [] := by decide
    simp [factor?, table]

theorem positive_ascii_of_mem_units (listed : (unit, factor) ∈ units resource) :
    0 < factor ∧ ∀ c ∈ unit.toList, isAsciiLetter c := by
  have entries : ∀ entry ∈ ("", 1) :: ("", 10 ^ 6) :: sizeUnits ++ timeUnits,
      0 < entry.2 ∧ ∀ c ∈ entry.1.toList, isAsciiLetter c := by decide
  apply entries (unit, factor)
  unfold units at listed
  repeat' (split at listed)
  all_goals simp_all
  all_goals tauto

/-! ## Numbers with units -/

/-- The number that digits spell, the most significant one first. -/
def decimal (digits : List Char) : Nat :=
  Nat.ofDigits 10 (digits.map fun c => c.toNat - '0'.toNat).reverse

theorem ofDigits_eq_decimal (digits : List Char) : ofDigits digits = decimal digits := by
  rw [ofDigits, decimal, Nat.ofDigits_eq_foldr, ← foldl_eq_foldr_reverse, foldl_map]
  simp only [Nat.cast_id, Nat.add_comm]

theorem limit?_of_number {value : String} (amounts : measure ≠ .nice) (finite : value ≠ "infinity") :
    limit? resource measure value = (numberAndUnit? value.toList).bind fun (number, unit) =>
      if number < amountBound then
        (factor? resource measure unit).bind fun factor =>
          if number * factor < amountBound then some (.amount (number * factor)) else none
      else none := by
  unfold limit?
  rw [if_neg (by simpa using finite)]
  cases measure with
  | nice => exact absurd rfl amounts
  | size => rfl
  | count => rfl
  | time => rfl

/-- The parts of a value: digits, blanks and a unit, of which only the digits have to be there.  The
unit is made of letters, or of any signs that are neither blanks nor digits. -/
structure IsAmount (digits blanks letters : List Char) : Prop where
  someDigit : digits ≠ []
  digit : ∀ c ∈ digits, isAsciiDigit c = true
  blank : ∀ c ∈ blanks, isBlank c = true
  letter : ∀ c ∈ letters, isSolid c = true ∧ isAsciiDigit c = false

namespace IsAmount

theorem startsSolid (valid : IsAmount digits blanks letters) (rest : List Char) :
    StartsSolid (digits ++ rest) := by
  obtain ⟨c, tail, rfl⟩ := exists_cons_of_ne_nil valid.someDigit
  exact ⟨c, tail ++ rest, rfl, (isSolid_of_isAsciiDigit (valid.digit c mem_cons_self)).1⟩

theorem trim_eq (valid : IsAmount digits blanks letters) :
    trim (digits ++ (blanks ++ letters)) = digits ++ (if letters = [] then [] else blanks ++ letters) := by
  rw [trim, trimStart_of_startsSolid (valid.startsSolid _)]
  rcases eq_nil_or_concat letters with rfl | ⟨start, last, rfl⟩
  · obtain ⟨before, digit, rfl⟩ := (eq_nil_or_concat digits).resolve_left valid.someDigit
    have solid : isSolid digit := (isSolid_of_isAsciiDigit (valid.digit digit (by simp))).1
    simp only [append_nil, if_true]
    rw [trimEnd_append_of_blanks valid.blank, concat_eq_append]
    exact trimEnd_append_of_solid solid before
  · have solid : isSolid last := (valid.letter last (by simp)).1
    have whole : digits ++ (blanks ++ start.concat last) = (digits ++ (blanks ++ start)) ++ [last] := by simp
    rw [if_neg (by simp), whole]
    exact trimEnd_append_of_solid solid _

theorem notDigit_of_head (valid : IsAmount digits blanks letters) {c : Char}
    (first : c ∈ (blanks ++ letters).head?) : isAsciiDigit c = false := by
  rcases mem_append.mp (mem_of_mem_head? first) with inBlanks | inLetters
  · rw [← Bool.not_eq_true]
    intro digit
    have solid := (isSolid_of_isAsciiDigit digit).1
    rw [← isBlank_eq_false_iff, valid.blank c inBlanks] at solid
    cases solid
  · exact (valid.letter c inLetters).2

theorem trimStart_eq (valid : IsAmount digits blanks letters) : trimStart (blanks ++ letters) = letters := by
  rw [trimStart_append_of_blank valid.blank]
  cases letters with
  | nil => rfl
  | cons c tail => exact trimStart_cons_of_solid (valid.letter c mem_cons_self).1 tail

theorem numberAndUnit?_trim (valid : IsAmount digits blanks letters) :
    numberAndUnit? (trim (digits ++ (blanks ++ letters))) =
      if letters.all isAsciiLetter then some (decimal digits, String.ofList letters) else none := by
  obtain ⟨rest, kept, stops, unit⟩ : ∃ rest, trim (digits ++ (blanks ++ letters)) = digits ++ rest ∧
      (∀ c ∈ rest.head?, isAsciiDigit c = false) ∧ trimStart rest = letters := by
    by_cases none : letters = []
    · exact ⟨[], by rw [valid.trim_eq, if_pos none], by simp, none.symm⟩
    · exact ⟨blanks ++ letters, by rw [valid.trim_eq, if_neg none], fun _ => valid.notDigit_of_head,
        valid.trimStart_eq⟩
  have taken : (digits ++ rest).takeWhile isAsciiDigit = digits := by
    rw [takeWhile_append_of_pos valid.digit]
    cases rest with
    | nil => simp
    | cons c tail => simp [stops c rfl]
  have left : (digits ++ rest).dropWhile isAsciiDigit = rest := by
    rw [dropWhile_append_of_pos valid.digit]
    cases rest with
    | nil => rfl
    | cons c tail => simp [stops c rfl]
  have some : digits.isEmpty = false := by simpa using valid.someDigit
  simp only [numberAndUnit?, kept, taken, left, unit, some, ofDigits_eq_decimal, Bool.false_or]
  cases letters.all isAsciiLetter <;> rfl

theorem not_infinity (valid : IsAmount digits blanks letters) :
    trimmed (String.ofList (digits ++ (blanks ++ letters))) ≠ "infinity" := by
  intro same
  obtain ⟨c, tail, rfl⟩ := exists_cons_of_ne_nil valid.someDigit
  have chars := congrArg String.toList same
  rw [trimmed, String.toList_ofList, String.toList_ofList, valid.trim_eq] at chars
  have digit := valid.digit c mem_cons_self
  rw [(List.cons.inj chars).1] at digit
  cases digit

theorem limit?_eq (valid : IsAmount digits blanks letters) (amounts : measure ≠ .nice) :
    limit? resource measure (trimmed (String.ofList (digits ++ (blanks ++ letters)))) =
      if letters.all isAsciiLetter ∧ decimal digits < amountBound then
        (factor? resource measure (String.ofList letters)).bind fun factor =>
          if decimal digits * factor < amountBound then some (.amount (decimal digits * factor)) else none
      else none := by
  rw [limit?_of_number amounts valid.not_infinity]
  simp only [trimmed, String.toList_ofList, valid.numberAndUnit?_trim]
  by_cases known : letters.all isAsciiLetter
  · simp [known]
  · simp [known]

theorem limit?_of_fits (valid : IsAmount digits blanks letters) (amounts : measure ≠ .nice)
    (measured : measure? resource = some measure) (listed : (String.ofList letters, factor) ∈ units resource)
    (fits : decimal digits * factor < amountBound) :
    limit? resource measure (trimmed (String.ofList (digits ++ (blanks ++ letters)))) =
      some (.amount (decimal digits * factor)) := by
  obtain ⟨positive, ascii⟩ := positive_ascii_of_mem_units listed
  rw [String.toList_ofList, ← all_eq_true] at ascii
  have below : decimal digits < amountBound := Nat.lt_of_le_of_lt (Nat.le_mul_of_pos_right _ positive) fits
  rw [valid.limit?_eq amounts, if_pos ⟨ascii, below⟩, (factor?_eq_some_iff measured).mpr listed]
  simp [fits]

theorem limit?_of_excess (valid : IsAmount digits blanks letters) (amounts : measure ≠ .nice)
    (measured : measure? resource = some measure)
    (excess : ∀ factor, (String.ofList letters, factor) ∈ units resource → amountBound ≤ decimal digits * factor) :
    limit? resource measure (trimmed (String.ofList (digits ++ (blanks ++ letters)))) = none := by
  rw [valid.limit?_eq amounts]
  split
  · rw [Option.bind_eq_none_iff]
    intro factor found
    have tooMuch := excess factor ((factor?_eq_some_iff measured).mp found)
    rw [if_neg (Nat.not_lt.mpr tooMuch)]
  · rfl

end IsAmount

theorem make_eq {base : RuleBase} {value : String} (plain : base.forbidModifiers .rlimit = .ok ())
    (measured : measure? resource = some measure) :
    make base resource value =
      match limit? resource measure (trimmed value) with
      | none => refuse (.badRlimitValue resource (trimmed value))
      | some limit => .ok ⟨resource, trimmed value, limit⟩ := by
  rw [make, plain]
  simp only [measured]
  rfl

/-! ## Limits on one resource -/

/-- The values that a limit on a resource can have. -/
def IsFor (resource : String) : LimitValue → Prop
  | .infinity => True
  | .amount _ => measure? resource ≠ some .nice
  | .nice _ => measure? resource = some .nice

theorem isFor_of_limit? {value : String} {limit : LimitValue} (measured : measure? resource = some measure)
    (found : limit? resource measure value = some limit) : IsFor resource limit := by
  unfold limit? at found
  split at found
  · cases found
    trivial
  · split at found
    · obtain ⟨level, _, rfl⟩ := Option.map_eq_some_iff.mp found
      exact measured
    next notNice =>
      obtain ⟨⟨number, unit⟩, _, found⟩ := Option.bind_eq_some_iff.mp found
      simp only [Option.ite_none_right_eq_some, Option.bind_eq_some_iff] at found
      obtain ⟨_, factor, _, _, same⟩ := found
      rw [← Option.some.inj same, IsFor, measured]
      exact fun nice => notNice (Option.some.inj nice)

variable {limit other : LimitValue}

theorem limitCovers_total (first : IsFor resource limit) (second : IsFor resource other) :
    limitCovers limit other ∨ limitCovers other limit := by
  cases limit with
  | infinity => exact .inl rfl
  | amount n =>
    cases other with
    | infinity => exact .inr rfl
    | amount m => simpa [limitCovers] using Nat.le_total m n
    | nice level => exact absurd second first
  | nice level =>
    cases other with
    | infinity => exact .inr rfl
    | amount m => exact absurd first second
    | nice lower => simpa [limitCovers] using Int.le_total level lower

theorem limitCovers_antisymm (first : limitCovers limit other) (second : limitCovers other limit) :
    limit = other := by
  cases limit <;> cases other <;> simp_all [limitCovers]
  all_goals omega

end Rlimit

namespace Rule

def IsLimitOn (resource : String) (rule : Rule) : Prop :=
  ∃ base value content, Rlimit.make base resource value = .ok content ∧ rule = ⟨base, .rlimit content⟩

variable {resource : String} {rule other third : Rule}

theorem IsLimitOn.exists_limit (valid : rule.IsLimitOn resource) :
    ∃ base value limit, base.audit = false ∧ base.deny = false ∧ Rlimit.IsFor resource limit ∧
      rule = ⟨base, .rlimit ⟨resource, value, limit⟩⟩ := by
  obtain ⟨base, value, content, made, rfl⟩ := valid
  obtain ⟨plain, measure, limit, measured, found, rfl⟩ := Rlimit.make_eq_ok_iff.mp made
  obtain ⟨audit, decision⟩ := RuleBase.forbidModifiers_eq_ok_iff.mp plain
  exact ⟨base, trimmed value, limit, audit, (RuleBase.decision_eq_unstated_iff.mp decision).1, Rlimit.isFor_of_limit? measured found, rfl⟩

section Comparison

variable {base others : RuleBase} {text written : String} {limit value : LimitValue}
  (audit : base.audit = others.audit) (deny : base.deny = others.deny)

include audit deny

theorem covers_limit_iff {checkDecision checkAudit : Bool} :
    Rule.covers ⟨base, .rlimit ⟨resource, text, limit⟩⟩ ⟨others, .rlimit ⟨resource, written, value⟩⟩
      checkDecision checkAudit = .ok true ↔ Rlimit.limitCovers limit value := by
  rw [covers_eq_ok_iff, coversWith, RuleBase.covers_of_same audit deny]
  simp [kind, RuleBody.kind, RuleBody.covers?, Rlimit.covers]

theorem same_limit_iff :
    Rule.same ⟨base, .rlimit ⟨resource, text, limit⟩⟩ ⟨others, .rlimit ⟨resource, written, value⟩⟩ false =
      .ok true ↔ limit = value := by
  rw [same_eq_ok_iff, sameAs]
  simp [kind, RuleBody.kind, RuleBody.same?, Rlimit.same, RuleBase.same, audit, deny]

end Comparison

/-- Numbers with units stand for exact amounts or are refused, and the limits on one resource form a
total preorder in which two limits cover each other exactly where they say the same. -/
theorem limits_exact_and_total :
    (∀ (base : RuleBase) (resource : String) (digits blanks unit : List Char),
      base.audit = false → base.decision = .unstated →
      resource ∈ Rlimit.sizes ++ Rlimit.counts ++ Rlimit.times → Rlimit.IsAmount digits blanks unit →
      let value := String.ofList (digits ++ (blanks ++ unit))
      (∀ factor, (String.ofList unit, factor) ∈ Rlimit.units resource →
        Rlimit.decimal digits * factor < 2 ^ 64 →
        Rlimit.make base resource value =
          .ok ⟨resource, trimmed value, .amount (Rlimit.decimal digits * factor)⟩) ∧
      ((∀ factor, (String.ofList unit, factor) ∈ Rlimit.units resource →
          2 ^ 64 ≤ Rlimit.decimal digits * factor) →
        Rlimit.make base resource value = refuse (.badRlimitValue resource (trimmed value)))) ∧
    ∀ (resource : String) (checkDecision checkAudit : Bool),
      (∀ rule other : Rule, rule.IsLimitOn resource → other.IsLimitOn resource →
        (rule.covers other checkDecision checkAudit = .ok true ∨
          other.covers rule checkDecision checkAudit = .ok true) ∧
        (rule.covers other checkDecision checkAudit = .ok true ∧
            other.covers rule checkDecision checkAudit = .ok true ↔
          rule.same other false = .ok true)) ∧
      ∀ rule other third : Rule, rule.IsLimitOn resource → other.IsLimitOn resource →
        third.IsLimitOn resource → rule.covers other checkDecision checkAudit = .ok true →
        other.covers third checkDecision checkAudit = .ok true →
        rule.covers third checkDecision checkAudit = .ok true := by
  refine ⟨?_, fun resource checkDecision checkAudit => ⟨?_, ?_⟩⟩
  · intro base resource digits blanks unit audit decision known valid value
    obtain ⟨measure, measured, amounts⟩ := Rlimit.measure?_of_mem known
    have made := @Rlimit.make_eq _ _ base value (RuleBase.forbidModifiers_eq_ok_iff.mpr ⟨audit, decision⟩) measured
    refine ⟨fun factor listed fits => ?_, fun excess => ?_⟩
    · rw [made, valid.limit?_of_fits amounts measured listed fits]
    · rw [made, valid.limit?_of_excess amounts measured excess]
  · intro rule other first second
    obtain ⟨base, _, limit, audit, deny, isFor, rfl⟩ := first.exists_limit
    obtain ⟨others, _, value, audit', deny', isFor', rfl⟩ := second.exists_limit
    have audits := audit.trans audit'.symm
    have denies := deny.trans deny'.symm
    rw [covers_limit_iff audits denies, covers_limit_iff audits.symm denies.symm, same_limit_iff audits denies]
    refine ⟨Rlimit.limitCovers_total isFor isFor', fun both => Rlimit.limitCovers_antisymm both.1 both.2, ?_⟩
    rintro rfl
    exact ⟨Rlimit.limitCovers_self limit, Rlimit.limitCovers_self limit⟩
  · intro rule other third first second last covers covered
    obtain ⟨base, _, limit, audit, deny, _, rfl⟩ := first.exists_limit
    obtain ⟨others, _, value, audit', deny', _, rfl⟩ := second.exists_limit
    obtain ⟨thirds, _, lowest, audit'', deny'', _, rfl⟩ := last.exists_limit
    rw [covers_limit_iff (audit.trans audit'.symm) (deny.trans deny'.symm)] at covers
    rw [covers_limit_iff (audit'.trans audit''.symm) (deny'.trans deny''.symm)] at covered
    rw [covers_limit_iff (audit.trans audit''.symm) (deny.trans deny''.symm)]
    exact Rlimit.limitCovers_trans covers covered

/-- Two minutes of processor time, more bytes than a word can count, and levels of niceness. -/
theorem limits_exact_and_total_samples :
    let nice (text : String) (level : Int) : Rule := ⟨{}, .rlimit ⟨"nice", text, .nice level⟩⟩
    Rlimit.make {} "cpu" "2 min" = .ok ⟨"cpu", "2 min", .amount 120000000⟩ ∧
      Rlimit.make {} "as" "17179869184G" = refuse (.badRlimitValue "as" "17179869184G") ∧
      ((nice "-5" (-5)).covers (nice "0" 0) true true = .ok true ∨
        (nice "0" 0).covers (nice "-5" (-5)) true true = .ok true) := by
  intro nice
  have minutes : Rlimit.IsAmount ['2'] [' '] ['m', 'i', 'n'] := ⟨by decide, by decide, by decide, by decide⟩
  have bytes : Rlimit.IsAmount "17179869184".toList [] ['G'] := ⟨by decide, by decide, by decide, by decide⟩
  have lower : (nice "-5" (-5)).IsLimitOn "nice" := ⟨{}, "-5", _, by decide, rfl⟩
  have zero : (nice "0" 0).IsLimitOn "nice" := ⟨{}, "0", _, by decide, rfl⟩
  obtain ⟨exact, ordered⟩ := limits_exact_and_total
  refine ⟨?_, ?_, ((ordered "nice" true true).1 _ _ lower zero).1⟩
  · exact (exact {} "cpu" ['2'] [' '] ['m', 'i', 'n'] rfl rfl (by decide) minutes).1 60000000 (by decide) (by decide)
  · have excess : ∀ entry ∈ Rlimit.units "as", entry.1 = "G" →
        2 ^ 64 ≤ Rlimit.decimal "17179869184".toList * entry.2 := by decide
    exact (exact {} "as" "17179869184".toList [] ['G'] rfl rfl (by decide) bytes).2 fun factor listed =>
      excess (_, factor) listed rfl

end Rule

end ArmorPolicy
