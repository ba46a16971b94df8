import Mathlib.Algebra.Order.Ring.Nat
import Mathlib.Tactic.Ring
import Fieldbus.Binary.Binary64

/-!
# Natural numbers that doubles hold exactly

A finite word stands for one pair of a significand and a place: the significand has 53 bits, and
fewer of them only at the lowest place (`Format.Canonical`).  Words are ordered as the numbers are,
and a number that has such a pair is packed without rounding (`Format.pack_canonical`).

Places are counted from the lowest one, so a pair stands for a natural number of units, and all of
it is arithmetic of natural numbers.  On doubles that hold natural numbers (`Binary64.Holds`)
products by powers of two are exact, and so are rounding, comparison and truncation.
-/

namespace Fieldbus

namespace Binary.Format

/-! ## Words -/

/-- The significand and the place of a finite word. -/
structure Canonical (significand place : Nat) : Prop where
  small : significand < 2 ^ 53
  /-- Only at the lowest place may the significand be short. -/
  full : 2 ^ 52 ≤ significand ∨ place = 0
  finite : place ≤ 2045

variable {m p n q : Nat}

/-- How many places the lowest one is below the point. -/
def lowest : Nat := 1074

theorem minExp_double : double.minExp = -lowest := by decide

theorem infinity_double : double.infinity = 2047 * 2 ^ 52 := by decide

theorem Canonical.word_lt (h : Canonical m p) : p * 2 ^ 52 + m < 2047 * 2 ^ 52 := by
  have small := h.small
  have finite := h.finite
  omega

/-- The word of a pair is read as the pair. -/
theorem unpack_canonical (h : Canonical m p) :
    double.unpack (p * 2 ^ 52 + m) = (m, (p : Int) - lowest) := by
  have small := h.small
  have shifted : (p * 2 ^ 52 + m) >>> double.fraction = (p * 2 ^ 52 + m) / 2 ^ 52 :=
    Nat.shiftRight_eq_div_pow ..
  have unit : 1 <<< double.fraction = 2 ^ 52 := by decide
  simp only [unpack, shifted, unit, minExp_double]
  rcases Nat.lt_or_ge m (2 ^ 52) with short | full
  · -- A short significand is at the lowest place.
    obtain rfl : p = 0 := h.full.resolve_left (Nat.not_le.mpr short)
    rw [if_pos (by omega)]
    simp only [Prod.mk.injEq]
    omega
  · rw [if_neg (by omega)]
    simp only [Prod.mk.injEq]
    omega

/-- Words are ordered as what they stand for. -/
theorem word_lt_word (h : Canonical m p) (h' : Canonical n q) :
    p * 2 ^ 52 + m < q * 2 ^ 52 + n ↔ m * 2 ^ p < n * 2 ^ q := by
  -- A pair at a lower place stands for less.
  have below {m p n q : Nat} (h : Canonical m p) (h' : Canonical n q) (lower : p < q) :
      p * 2 ^ 52 + m < q * 2 ^ 52 + n ∧ m * 2 ^ p < n * 2 ^ q := by
    have small := h.small
    have full : 2 ^ 52 ≤ n := h'.full.resolve_right (Nat.ne_of_gt (Nat.zero_lt_of_lt lower))
    refine ⟨by omega, ?_⟩
    calc m * 2 ^ p < 2 ^ 53 * 2 ^ p := Nat.mul_lt_mul_of_pos_right small (Nat.two_pow_pos p)
      _ = 2 ^ 52 * 2 ^ (p + 1) := by ring
      _ ≤ n * 2 ^ q := Nat.mul_le_mul full (Nat.pow_le_pow_right Nat.two_pos lower)
  rcases Nat.lt_trichotomy p q with lower | rfl | higher
  · obtain ⟨words, numbers⟩ := below h h' lower
    exact iff_of_true words numbers
  · rw [Nat.mul_lt_mul_right (Nat.two_pow_pos p)]
    omega
  · obtain ⟨words, numbers⟩ := below h' h higher
    exact iff_of_false (Nat.lt_asymm words) (Nat.lt_asymm numbers)

/-- No rounding takes place where the lower digits are zero. -/
theorem halfEven_shifted (m k : Nat) : halfEven (m * 2 ^ k) k = m := by
  have positive := Nat.two_pow_pos k
  have exact : (m * 2 ^ k) >>> k = m := by
    rw [Nat.shiftRight_eq_div_pow, Nat.mul_div_cancel _ positive]
  have unit : 1 <<< k = 2 ^ k := by rw [Nat.shiftLeft_eq, Nat.one_mul]
  simp only [halfEven, exact, unit, Nat.mul_mod_left]
  rw [if_neg (by omega)]

theorem log2_shifted {a : Nat} (nonzero : a ≠ 0) (e : Nat) : (a * 2 ^ e).log2 = a.log2 + e := by
  have positive := Nat.two_pow_pos e
  rw [Nat.log2_eq_iff (Nat.mul_ne_zero nonzero (Nat.ne_of_gt positive)), Nat.pow_add,
    Nat.add_right_comm, Nat.pow_add]
  exact ⟨Nat.mul_le_mul_right _ (Nat.log2_self_le nonzero),
    Nat.mul_lt_mul_of_pos_right Nat.lt_log2_self positive⟩

/-- A product with a power of two has one significand at each place. -/
theorem significand_of_same {a e : Nat} (same : a * 2 ^ e = m * 2 ^ p) :
    (if (p : Int) - lowest ≤ (e : Int) - lowest then
      a <<< ((e : Int) - lowest - ((p : Int) - lowest)).toNat
      else halfEven a ((p : Int) - lowest - ((e : Int) - lowest)).toNat) = m := by
  split
  next higher =>
    obtain ⟨k, rfl⟩ : ∃ k, e = p + k := ⟨e - p, by omega⟩
    have gap : (((p + k : Nat) : Int) - lowest - ((p : Int) - lowest)).toNat = k := by omega
    rw [gap, Nat.shiftLeft_eq]
    rw [Nat.pow_add, Nat.mul_comm (2 ^ p), ← Nat.mul_assoc] at same
    exact Nat.eq_of_mul_eq_mul_right (Nat.two_pow_pos p) same
  next lower =>
    obtain ⟨k, rfl⟩ : ∃ k, p = e + k := ⟨p - e, by omega⟩
    have gap : (((e + k : Nat) : Int) - lowest - ((e : Int) - lowest)).toNat = k := by omega
    rw [Nat.pow_add, Nat.mul_comm (2 ^ e), ← Nat.mul_assoc] at same
    rw [gap, Nat.eq_of_mul_eq_mul_right (Nat.two_pow_pos e) same, halfEven_shifted]

/-- A number that has a pair is packed to the word of the pair. -/
theorem pack_canonical (h : Canonical m p) {a e : Nat} (same : a * 2 ^ e = m * 2 ^ p) :
    double.pack a ((e : Int) - lowest) = p * 2 ^ 52 + m := by
  have finite := h.word_lt
  have unit := Nat.two_pow_pos p
  unfold pack
  split
  next zero =>
    rw [zero, Nat.zero_mul, eq_comm, Nat.mul_eq_zero] at same
    have none : m = 0 := same.resolve_right (Nat.ne_of_gt unit)
    have lowest : p = 0 := h.full.resolve_left (by omega)
    rw [none, lowest]
    rfl
  next nonzero =>
    have positive : m ≠ 0 := by
      rintro rfl
      rw [Nat.zero_mul, Nat.mul_eq_zero] at same
      exact same.elim nonzero (Nat.ne_of_gt (Nat.two_pow_pos e))
    have digits : a.log2 + e = m.log2 + p := by
      rw [← log2_shifted nonzero, ← log2_shifted positive, same]
    have short : m.log2 < 53 := (Nat.log2_lt positive).mpr h.small
    have place : max ((e : Int) - lowest + (a.log2 : Int) - double.fraction) double.minExp =
        (p : Int) - lowest := by
      have fraction : (double.fraction : Int) = 52 := rfl
      rw [minExp_double, fraction]
      rcases h.full with full | lowest
      · have long : 52 ≤ m.log2 := (Nat.le_log2 positive).mpr full
        omega
      · omega
    have significand := significand_of_same same
    have shifted :
        ((p : Int) - lowest - -(lowest : Int)).toNat <<< double.fraction = p * 2 ^ 52 := by
      have count : ((p : Int) - lowest - -(lowest : Int)).toNat = p := by omega
      rw [count, Nat.shiftLeft_eq]
      rfl
    dsimp only
    rw [place, significand, minExp_double, shifted, infinity_double]
    exact Nat.min_eq_left (Nat.le_of_lt finite)

end Binary.Format

/-! ## Doubles -/

namespace Binary64

open Binary Format

/-- The double is the natural number. -/
def Holds (x : Binary64) (n : Nat) : Prop :=
  ∃ m p, Canonical m p ∧ x = ofWord false (p * 2 ^ 52 + m) ∧ m * 2 ^ p = n * 2 ^ lowest

section

variable {x y : Binary64} {a b n k : Nat}

theorem word_ofWord {w : Nat} (h : w < 2047 * 2 ^ 52) : (ofWord false w).word = w := by
  have unit : 1 <<< 63 = 2 ^ 63 := by decide
  simp only [word, ofWord, Bool.false_eq_true, if_false, UInt64.toNat_ofNat', unit]
  omega

theorem negative_ofWord {w : Nat} (h : w < 2047 * 2 ^ 52) : (ofWord false w).negative = false := by
  have unit : 1 <<< 63 = 2 ^ 63 := by decide
  simp only [negative, ofWord, Bool.false_eq_true, if_false, UInt64.toNat_ofNat', unit]
  rw [decide_eq_false_iff_not]
  omega

/-- A double that holds a natural number is positive and finite, and read as its pair. -/
theorem Holds.cases (h : x.Holds n) :
    ∃ m p, Canonical m p ∧ m * 2 ^ p = n * 2 ^ lowest ∧ x.word = p * 2 ^ 52 + m ∧
      x.negative = false ∧ x.parts = (m, (p : Int) - lowest) := by
  obtain ⟨m, p, canonical, rfl, same⟩ := h
  have word := word_ofWord canonical.word_lt
  exact ⟨m, p, canonical, same, word, negative_ofWord canonical.word_lt,
    by rw [parts, word, unpack_canonical canonical]⟩

theorem Holds.isFinite (h : x.Holds n) : x.isFinite = true ∧ x.isInfinite = false ∧
    x.isNaN = false := by
  obtain ⟨m, p, canonical, -, word, -⟩ := h.cases
  have finite := canonical.word_lt
  simp only [Binary64.isFinite, isInfinite, isNaN, word, infinity_double, decide_eq_true_eq,
    decide_eq_false_iff_not]
  omega

/-- A number with no more digits than a significand is held. -/
theorem holds_ofDyadic (small : a < 2 ^ 53) (k : Nat) (near : k ≤ 900) :
    (ofDyadic false a k).Holds (a * 2 ^ k) := by
  obtain ⟨m, p, canonical, same⟩ : ∃ m p, Canonical m p ∧ a * 2 ^ (k + lowest) = m * 2 ^ p := by
    rcases Nat.eq_zero_or_pos a with rfl | positive
    · exact ⟨0, 0, ⟨by decide, .inr rfl, by decide⟩, by rw [Nat.zero_mul, Nat.zero_mul]⟩
    · -- The significand is moved up to its full length.
      have known : lowest = 1074 := rfl
      have nonzero := Nat.ne_of_gt positive
      have digits : a.log2 < 53 := (Nat.log2_lt nonzero).mpr small
      have long : (a * 2 ^ (52 - a.log2)).log2 = 52 := by
        rw [log2_shifted nonzero]
        omega
      rw [Nat.log2_eq_iff (Nat.mul_ne_zero nonzero (Nat.ne_of_gt (Nat.two_pow_pos _)))] at long
      refine ⟨a * 2 ^ (52 - a.log2), k + lowest - (52 - a.log2),
        ⟨long.2, .inl long.1, by omega⟩, ?_⟩
      rw [Nat.mul_assoc, ← Nat.pow_add]
      congr 2
      omega
  have place : ((k + lowest : Nat) : Int) - lowest = k := by omega
  have packed := pack_canonical canonical same
  rw [place] at packed
  refine ⟨m, p, canonical, by rw [ofDyadic, packed], ?_⟩
  rw [← same, Nat.pow_add, Nat.mul_assoc]

theorem holds_ofNat (small : a < 2 ^ 53) : (ofNat a).Holds a := by
  have held := holds_ofDyadic small 0 (by decide)
  rwa [Nat.pow_zero, Nat.mul_one] at held

/-- Doubles are ordered as the numbers that they hold. -/
theorem Holds.lt_iff (h : x.Holds a) (h' : y.Holds b) : x.lt y = true ↔ a < b := by
  obtain ⟨m, p, canonical, same, word, sign, -⟩ := h.cases
  obtain ⟨n, q, canonical', same', word', sign', -⟩ := h'.cases
  have order := word_lt_word canonical canonical'
  rw [same, same', Nat.mul_lt_mul_right (Nat.two_pow_pos lowest)] at order
  simp only [lt, h.isFinite, h'.isFinite, rank, sign, sign', word, word', Bool.not_false,
    Bool.true_and, Bool.false_eq_true, if_false, decide_eq_true_eq, Int.ofNat_lt]
  exact order

/-- A natural number is held by one double. -/
theorem Holds.unique (h : x.Holds n) (h' : y.Holds n) : x = y := by
  obtain ⟨m, p, canonical, rfl, same⟩ := h
  obtain ⟨m', p', canonical', rfl, same'⟩ := h'
  have order := word_lt_word canonical canonical'
  have order' := word_lt_word canonical' canonical
  rw [same, same'] at order order'
  have words : p * 2 ^ 52 + m = p' * 2 ^ 52 + m' :=
    Nat.le_antisymm (Nat.not_lt.mp fun h => Nat.lt_irrefl _ (order'.mp h))
      (Nat.not_lt.mp fun h => Nat.lt_irrefl _ (order.mp h))
  rw [words]

/-- The pair of a positive number does not stand far below the point. -/
theorem place_of_held {m p : Nat} (small : m < 2 ^ 53) (positive : 0 < a)
    (same : m * 2 ^ p = a * 2 ^ lowest) : lowest < p + 53 := by
  refine (Nat.pow_lt_pow_iff_right Nat.one_lt_two).mp ?_
  calc 2 ^ lowest ≤ a * 2 ^ lowest := Nat.le_mul_of_pos_left _ positive
    _ = m * 2 ^ p := same.symm
    _ < 2 ^ 53 * 2 ^ p := Nat.mul_lt_mul_of_pos_right small (Nat.two_pow_pos p)
    _ = 2 ^ (p + 53) := by rw [← Nat.pow_add, Nat.add_comm]

/-- The product with a power of two is exact. -/
theorem Holds.mul_two_pow (small : a < 2 ^ 53) (near : k ≤ 64) (h : x.Holds a)
    (h' : y.Holds (2 ^ k)) : (x.mul y).Holds (a * 2 ^ k) := by
  obtain ⟨m, p, canonical, same, word, sign, parts⟩ := h.cases
  obtain ⟨n, q, canonical', same', word', sign', parts'⟩ := h'.cases
  have product : x.mul y = ofDyadic false (m * n) ((p : Int) - lowest + ((q : Int) - lowest)) := by
    simp [mul, h.isFinite, h'.isFinite, sign, sign', parts, parts']
  rw [product]
  rcases Nat.eq_zero_or_pos a with rfl | positive
  · have none : m = 0 := by
      rw [Nat.zero_mul, Nat.mul_eq_zero] at same
      exact same.resolve_right (Nat.ne_of_gt (Nat.two_pow_pos p))
    have zero (e : Int) : ofDyadic false 0 e = ofNat 0 := by
      rw [ofNat, ofDyadic, ofDyadic, pack, pack, if_pos rfl, if_pos rfl]
    rw [none, Nat.zero_mul, Nat.zero_mul, zero]
    exact holds_ofNat (by decide)
  · obtain ⟨l, r, canonical'', same'', word'', -⟩ := (holds_ofDyadic small k (by omega)).cases
    have high := place_of_held canonical.small positive same
    have high' := place_of_held canonical'.small (Nat.two_pow_pos k) same'
    obtain ⟨e, places⟩ : ∃ e, p + q = e + lowest := ⟨p + q - lowest, by unfold lowest at *; omega⟩
    have place : (p : Int) - lowest + ((q : Int) - lowest) = (e : Int) - lowest := by omega
    have whole : m * n * 2 ^ e = l * 2 ^ r := by
      refine Nat.eq_of_mul_eq_mul_right (Nat.two_pow_pos lowest) ?_
      calc m * n * 2 ^ e * 2 ^ lowest = m * n * 2 ^ (p + q) := by
            rw [Nat.mul_assoc, ← Nat.pow_add, places]
        _ = (m * 2 ^ p) * (n * 2 ^ q) := by rw [Nat.pow_add, Nat.mul_mul_mul_comm]
        _ = a * 2 ^ k * 2 ^ lowest * 2 ^ lowest := by
            rw [same, same', Nat.mul_mul_mul_comm, Nat.mul_assoc (a * 2 ^ k)]
        _ = l * 2 ^ r * 2 ^ lowest := by rw [same'']
    exact ⟨l, r, canonical'', by rw [ofDyadic, place, pack_canonical canonical'' whole], same''⟩

/-- A double that holds a natural number is round. -/
theorem Holds.round (h : x.Holds n) : x.round = x := by
  obtain ⟨m, p, canonical, same, -, sign, parts⟩ := h.cases
  unfold Binary64.round
  rw [if_pos h.isFinite.1, parts]
  dsimp only
  split
  next => rfl
  next broken =>
    obtain ⟨k, down⟩ : ∃ k, lowest = p + k := ⟨lowest - p, by omega⟩
    have count : (-((p : Int) - lowest)).toNat = k := by omega
    -- The digits below the point are zero.
    have exact : m = n * 2 ^ k := by
      rw [down, Nat.pow_add, Nat.mul_comm (2 ^ p), ← Nat.mul_assoc] at same
      exact Nat.eq_of_mul_eq_mul_right (Nat.two_pow_pos p) same
    have small : n < 2 ^ 53 := Nat.lt_of_le_of_lt
      (exact ▸ Nat.le_mul_of_pos_right n (Nat.two_pow_pos k)) canonical.small
    have half : (2 * m + 1 <<< k) >>> (k + 1) = n := by
      have unit := Nat.two_pow_pos k
      rw [exact, Nat.shiftRight_eq_div_pow, Nat.shiftLeft_eq, Nat.one_mul, Nat.pow_succ]
      have twice : n * (2 ^ k * 2) = 2 * (n * 2 ^ k) := by ring
      refine Nat.div_eq_of_lt_le ?_ ?_
      · omega
      · rw [Nat.add_mul]
        omega
    rw [count, half, sign]
    exact (holds_ofNat small).unique h

theorem Holds.truncate (h : x.Holds n) : x.truncate = n := by
  obtain ⟨m, p, canonical, same, -, sign, parts⟩ := h.cases
  unfold Binary64.truncate
  rw [parts, sign]
  simp only [Bool.false_eq_true, if_false, Int.natCast_inj]
  split
  next whole =>
    obtain ⟨k, up⟩ : ∃ k, p = k + lowest := ⟨p - lowest, by omega⟩
    have count : ((p : Int) - lowest).toNat = k := by omega
    rw [up, Nat.pow_add, ← Nat.mul_assoc] at same
    rw [count, Nat.shiftLeft_eq]
    exact Nat.eq_of_mul_eq_mul_right (Nat.two_pow_pos lowest) same
  next broken =>
    obtain ⟨k, down⟩ : ∃ k, lowest = p + k := ⟨lowest - p, by omega⟩
    have count : (-((p : Int) - lowest)).toNat = k := by omega
    rw [down, Nat.pow_add, Nat.mul_comm (2 ^ p), ← Nat.mul_assoc] at same
    rw [count, Nat.eq_of_mul_eq_mul_right (Nat.two_pow_pos p) same, Nat.shiftRight_eq_div_pow,
      Nat.mul_div_cancel _ (Nat.two_pow_pos k)]

end

end Binary64

end Fieldbus
