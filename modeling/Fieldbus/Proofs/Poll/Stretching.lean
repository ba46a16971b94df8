import Mathlib.Algebra.Order.Round
import Mathlib.Data.List.Induction
import Mathlib.Data.Rat.Floor
import Mathlib.Tactic.Linarith
import Fieldbus.Backoff

/-!
# The law of the poll interval

The interval of a poll loop depends on the cycles so far only through one number: the failed cycles
since the last success (`CycleOutcome.failures`).  With exact products it is the normal interval
times a power of the multiplier, rounded and capped (`CycleBackoff.interval_afterAll`).

The exponent stops at 64, the count of failures at the greatest number of 32 bits, and the product
at the cap, and none of them lets the interval fall.  So it grows with the number of failures
(`stretchedBy_mono`), and all bounds follow from that.
-/

namespace Fieldbus

/-! ## Powers -/

/-- Repeated squaring is multiplication by a power. -/
theorem powerAux_eq (x acc : ℚ) (k n : Nat) (digits : n < 2 ^ k) :
    powerAux x acc k n = acc * x ^ n := by
  induction k generalizing x acc n with
  | zero =>
    have none : n = 0 := by simpa using digits
    subst none
    simp [powerAux]
  | succ k ih =>
    -- The lowest digit goes into the accumulator, the others into the square.
    have split : acc * x ^ n = (if n % 2 = 1 then acc * x else acc) * (x * x) ^ (n / 2) := by
      have whole : n = n % 2 + 2 * (n / 2) := by omega
      rcases Nat.mod_two_eq_zero_or_one n with even | odd
      · rw [if_neg (by omega), ← pow_two, ← pow_mul]
        congr 2
        omega
      · rw [if_pos odd, ← pow_two, ← pow_mul, mul_assoc, ← pow_succ']
        congr 2
        omega
    unfold powerAux
    rw [split]
    dsimp only [DelayNumber.mul]
    split
    next last => rw [last, pow_zero, mul_one]
    next => exact ih _ _ _ (by omega)

theorem power_eq (x : ℚ) (n : Nat) : power x n = x ^ n := by
  unfold power
  rw [powerAux_eq x _ _ n Nat.lt_log2_self]
  exact one_mul (x ^ n)

/-! ## Stretched durations -/

/-- A duration stretched by a number of failures, rounded and capped. -/
def stretchedBy (normal : Nanos) (multiplier : ℚ) (cap : Nanos) (failures : Nat) : Nanos :=
  if failures = 0 then normal
  else min (max cap normal) (round ((normal : ℚ) * multiplier ^ min failures 64)).toNat

variable {normal cap : Nanos} {multiplier : ℚ}

/-- Rounding keeps the order. -/
theorem round_le_round_of_le {x y : ℚ} (h : x ≤ y) : round x ≤ round y := by
  rw [round_eq, round_eq]
  exact Int.floor_le_floor (by linarith)

theorem stretchedBy_le (normal : Nanos) (multiplier : ℚ) (cap : Nanos) (failures : Nat) :
    stretchedBy normal multiplier cap failures ≤ max cap normal := by
  unfold stretchedBy
  split
  · exact Nat.le_max_right cap normal
  · exact Nat.min_le_left _ _

/-- With a multiplier of at least one, more failures stretch no less. -/
theorem stretchedBy_mono (grows : 1 ≤ multiplier) {fewer more : Nat} (le : fewer ≤ more) :
    stretchedBy normal multiplier cap fewer ≤ stretchedBy normal multiplier cap more := by
  have powers : ∀ {i j : Nat}, i ≤ j →
      round ((normal : ℚ) * multiplier ^ i) ≤ round ((normal : ℚ) * multiplier ^ j) := fun le =>
    round_le_round_of_le
      (mul_le_mul_of_nonneg_left (pow_le_pow_right₀ grows le) (Nat.cast_nonneg normal))
  unfold stretchedBy
  by_cases none : more = 0
  · have fewest : fewer = 0 := by omega
    rw [if_pos fewest, if_pos none]
  · rw [if_neg none]
    split
    · have first := powers (Nat.zero_le (min more 64))
      rw [pow_zero, mul_one, round_natCast] at first
      exact le_min (le_max_right cap normal) (Int.ofNat_le.mp (first.trans (Int.self_le_toNat _)))
    · exact min_le_min_left _ (Int.toNat_le_toNat (powers (min_le_min_right 64 le)))

theorem le_stretchedBy (grows : 1 ≤ multiplier) (failures : Nat) :
    normal ≤ stretchedBy normal multiplier cap failures :=
  stretchedBy_mono grows (Nat.zero_le failures)

/-- The machine stretches by rounding and capping, if its cap is a duration. -/
theorem stretched_eq (grows : 1 ≤ multiplier) (small : cap ≤ maxNanos) (steps : Nat) :
    stretched normal multiplier steps cap =
      min cap (round ((normal : ℚ) * multiplier ^ min steps 64)).toNat := by
  have factor : DelayNumber.atLeastOne multiplier = multiplier := if_neg (not_lt.mpr grows)
  unfold stretched
  rw [factor, power_eq]
  have nearest : ∀ x : ℚ, DelayNumber.nearestBelow? x cap =
      if (round x).toNat < cap then some (round x).toNat else none := fun x => by
    rw [round_eq]
    rfl
  have product : DelayNumber.mul (DelayNumber.ofNat normal) (multiplier ^ min steps 64) =
      (normal : ℚ) * multiplier ^ min steps 64 := rfl
  dsimp only
  rw [product, nearest]
  split_ifs with below
  · dsimp only
    rw [min_eq_right below.le, min_eq_left (below.le.trans small)]
  · exact (min_eq_left (not_lt.mp below)).symm

/-! ## Outcomes of cycles -/

/-- The failed cycles since the last successful one, or since the start. -/
def CycleOutcome.failures (outcomes : List CycleOutcome) : Nat :=
  (outcomes.reverse.takeWhile (· ≠ .allSucceeded)).count .allFailed

namespace CycleOutcome

@[simp] theorem failures_concat_allSucceeded (outcomes : List CycleOutcome) :
    failures (outcomes ++ [.allSucceeded]) = 0 := by
  simp [failures]

@[simp] theorem failures_concat_allFailed (outcomes : List CycleOutcome) :
    failures (outcomes ++ [.allFailed]) = failures outcomes + 1 := by
  simp [failures]

@[simp] theorem failures_concat_partly (outcomes : List CycleOutcome) :
    failures (outcomes ++ [.partly]) = failures outcomes := by
  simp [failures]

/-- As long as no cycle succeeds, there are no fewer failures. -/
theorem failures_le_append (outcomes : List CycleOutcome) {later : List CycleOutcome}
    (unbroken : .allSucceeded ∉ later) : failures outcomes ≤ failures (outcomes ++ later) := by
  induction later using List.reverseRecOn with
  | nil => rw [List.append_nil]
  | append_singleton later last ih =>
    rw [List.mem_append, not_or, List.mem_singleton] at unbroken
    have before := ih unbroken.1
    rw [← List.append_assoc]
    cases last with
    | allSucceeded => exact absurd rfl unbroken.2
    | partly => rwa [failures_concat_partly]
    | allFailed =>
      rw [failures_concat_allFailed]
      omega

end CycleOutcome

/-! ## The machine -/

namespace CycleBackoff

open CycleOutcome (failures)

/-- The machine after cycles with these outcomes. -/
def afterAll {α : Type} (b : CycleBackoff α) (outcomes : List CycleOutcome) : CycleBackoff α :=
  outcomes.foldl onCycle b

theorem afterAll_concat {α : Type} (b : CycleBackoff α) (outcomes : List CycleOutcome)
    (last : CycleOutcome) :
    b.afterAll (outcomes ++ [last]) = (b.afterAll outcomes).onCycle last := by
  simp [afterAll]

/-- Outcomes only move the count of failures, which stops at its greatest number. -/
theorem afterAll_start {α : Type} (normal cap : Nanos) (multiplier : α)
    (outcomes : List CycleOutcome) :
    (start normal multiplier cap).afterAll outcomes =
      { start normal multiplier cap with
        failedCycles := min (failures outcomes) maxFailures } := by
  induction outcomes using List.reverseRecOn with
  | nil => rfl
  | append_singleton outcomes last ih =>
    rw [afterAll_concat, ih]
    cases last with
    | allSucceeded => rw [CycleOutcome.failures_concat_allSucceeded]; rfl
    | partly => rw [CycleOutcome.failures_concat_partly]; rfl
    | allFailed =>
      rw [CycleOutcome.failures_concat_allFailed]
      simp only [onCycle, mk.injEq, true_and]
      omega

/-- The interval is the normal one stretched by the failures since the last success. -/
theorem interval_afterAll (grows : 1 ≤ multiplier) (small : max cap normal ≤ maxNanos)
    (outcomes : List CycleOutcome) :
    ((start normal multiplier cap).afterAll outcomes).interval =
      stretchedBy normal multiplier cap (failures outcomes) := by
  have counted : ∀ n, min (min n maxFailures) 64 = min n 64 := fun n => by
    have many : 64 ≤ maxFailures := by decide
    omega
  rw [afterAll_start]
  unfold interval stretchedBy
  dsimp only [start]
  rw [stretched_eq grows small, counted]
  have positive : 0 < maxFailures := by decide
  split_ifs with none zero zero
  · rfl
  · omega
  · omega
  · rfl

/-- What the machine has come to after outcomes, and where it goes from there. -/
structure Lawful (normal : Nanos) (multiplier : ℚ) (cap : Nanos) (outcomes : List CycleOutcome)
    (b : CycleBackoff ℚ) : Prop where
  /-- It counts the failures since the last success, up to the greatest number. -/
  counted : b.failedCycles = min (failures outcomes) maxFailures
  interval : b.interval = stretchedBy normal multiplier cap (failures outcomes)
  lower : normal ≤ b.interval
  upper : b.interval ≤ max cap normal
  /-- The interval does not fall as long as no cycle succeeds. -/
  kept : ∀ later, .allSucceeded ∉ later → b.interval ≤ (b.afterAll later).interval
  reset : (b.onCycle .allSucceeded).interval = normal

theorem lawful (grows : 1 ≤ multiplier) (small : max cap normal ≤ maxNanos)
    (outcomes : List CycleOutcome) :
    Lawful normal multiplier cap outcomes
      ((start normal multiplier cap).afterAll outcomes) := by
  have interval := interval_afterAll grows small outcomes
  refine ⟨?_, interval, ?_, ?_, fun later unbroken => ?_, ?_⟩
  · rw [afterAll_start]
  · rw [interval]
    exact le_stretchedBy grows _
  · rw [interval]
    exact stretchedBy_le ..
  · have whole : ((start normal multiplier cap).afterAll outcomes).afterAll later =
        (start normal multiplier cap).afterAll (outcomes ++ later) := by
      simp [afterAll]
    rw [whole, interval, interval_afterAll grows small]
    exact stretchedBy_mono grows (CycleOutcome.failures_le_append outcomes unbroken)
  · rw [afterAll_start]
    rfl

end CycleBackoff

end Fieldbus
