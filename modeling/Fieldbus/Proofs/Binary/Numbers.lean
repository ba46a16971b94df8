import Mathlib.Data.Rat.Floor
import Fieldbus.Proofs.Binary.Exact

/-!
# The numbers that doubles are

A finite double is a rational number (`Binary64.number`).  The operations on doubles that the codecs
of integers use say the same of it as arithmetic does: a double that is below another one is the
smaller number, and the integer part is that of the number.

Each integer is rounded to a double that is an integer, exactly if it has no more digits than a
significand, and never beyond the next power of two.
-/

namespace Fieldbus

open Binary Format

/-! ## Integer parts -/

/-- The integer part of a number, toward zero. -/
def towardZero (q : ℚ) : ℤ := if 0 ≤ q then ⌊q⌋ else ⌈q⌉

theorem le_towardZero {n : ℤ} {q : ℚ} (le : n ≤ q) : n ≤ towardZero q := by
  unfold towardZero
  split
  next => exact Int.le_floor.mpr le
  next => exact_mod_cast le.trans (Int.le_ceil q)

theorem towardZero_le {n : ℤ} {q : ℚ} (le : q ≤ n) : towardZero q ≤ n := by
  unfold towardZero
  split
  next => exact_mod_cast (Int.floor_le q).trans le
  next => exact Int.ceil_le.mpr le

theorem towardZero_intCast (n : ℤ) : towardZero n = n :=
  le_antisymm (towardZero_le le_rfl) (le_towardZero le_rfl)

theorem towardZero_of_nonneg {q : ℚ} (nonneg : 0 ≤ q) : towardZero q = ⌊q⌋ := if_pos nonneg

theorem towardZero_neg_of_nonneg {q : ℚ} (nonneg : 0 ≤ q) : towardZero (-q) = -⌊q⌋ := by
  unfold towardZero
  split
  next nonpos =>
    obtain rfl : q = 0 := le_antisymm (neg_nonneg.mp nonpos) nonneg
    simp
  next => exact Int.ceil_neg

namespace Binary64

/-! ## Numbers -/

/-- The number that a finite double is. -/
def number (x : Binary64) : ℚ := (if x.negative then -1 else 1) * (x.parts.1 * 2 ^ x.parts.2)

variable {x y : Binary64}

theorem exists_canonical (finite : x.isFinite = true) :
    ∃ m p, Canonical m p ∧ x.word = p * 2 ^ 52 + m ∧ x.parts = (m, (p : Int) - lowest) := by
  have below : x.word < 2047 * 2 ^ 52 := by simpa [isFinite, infinity_double] using finite
  obtain ⟨m, p, canonical, word⟩ : ∃ m p, Canonical m p ∧ x.word = p * 2 ^ 52 + m := by
    by_cases short : x.word < 2 ^ 52
    · exact ⟨x.word, 0, ⟨by omega, .inr rfl, by omega⟩, by omega⟩
    · exact ⟨x.word % 2 ^ 52 + 2 ^ 52, x.word / 2 ^ 52 - 1, ⟨by omega, .inl (by omega), by omega⟩,
        by omega⟩
  exact ⟨m, p, canonical, word, by rw [parts, word, unpack_canonical canonical]⟩

/-- The number in units of the lowest place. -/
theorem number_of_parts {m p : Nat} (parts : x.parts = (m, (p : Int) - lowest)) :
    x.number = ((if x.negative then -1 else 1) * (m * 2 ^ p : Nat) : Int) / 2 ^ lowest := by
  rw [number, parts]
  dsimp only
  rw [zpow_sub₀ two_ne_zero, zpow_natCast, zpow_natCast]
  push_cast
  split <;> ring

/-- What grows with the words grows with the ranks, if zero stays zero. -/
theorem signed_lt_signed {w w' u u' : Nat} (order : w < w' ↔ u < u') (order' : w' < w ↔ u' < u)
    (positive : 0 < w ↔ 0 < u) (positive' : 0 < w' ↔ 0 < u') {sign sign' : Bool}
    (below : (if sign then -(w : Int) else w) < if sign' then -(w' : Int) else w') :
    (if sign then -1 else 1) * (u : Int) < (if sign' then -1 else 1) * u' := by
  cases sign <;> cases sign' <;> simp only [Bool.false_eq_true, if_false, if_true] at below ⊢ <;>
    omega

/-- The double that is below another one is the smaller number. -/
theorem number_lt_number (finite : x.isFinite = true) (finite' : y.isFinite = true)
    (below : x.lt y = true) : x.number < y.number := by
  obtain ⟨m, p, canonical, word, parts⟩ := exists_canonical finite
  obtain ⟨n, q, canonical', word', parts'⟩ := exists_canonical finite'
  have zero : Canonical 0 0 := ⟨by decide, .inr rfl, by decide⟩
  have positive {m p : Nat} (h : Canonical m p) : 0 < p * 2 ^ 52 + m ↔ 0 < m * 2 ^ p := by
    simpa using word_lt_word zero h
  have ranks : x.rank < y.rank := by
    simp only [lt, Bool.and_eq_true, decide_eq_true_eq] at below
    exact below.2
  rw [rank, rank, word, word'] at ranks
  have units := signed_lt_signed (word_lt_word canonical canonical')
    (word_lt_word canonical' canonical) (positive canonical) (positive canonical') ranks
  have unit : (0 : ℚ) < 2 ^ lowest := pow_pos two_pos lowest
  rw [number_of_parts parts, number_of_parts parts', div_lt_div_iff_of_pos_right unit, Int.cast_lt]
  exact units

/-- The integer part of a double is that of its number. -/
theorem truncate_eq (x : Binary64) : x.truncate = towardZero x.number := by
  have whole : ((if 0 ≤ x.parts.2 then x.parts.1 <<< x.parts.2.toNat
      else x.parts.1 >>> (-x.parts.2).toNat : Nat) : Int) = ⌊(x.parts.1 * 2 ^ x.parts.2 : ℚ)⌋ := by
    generalize x.parts.1 = m, x.parts.2 = e
    split
    next above =>
      obtain ⟨k, rfl⟩ := Int.eq_ofNat_of_zero_le above
      rw [Int.toNat_natCast, Nat.shiftLeft_eq, zpow_natCast]
      exact_mod_cast (Int.floor_natCast (R := ℚ) (m * 2 ^ k)).symm
    next below =>
      obtain ⟨k, down⟩ := Int.eq_ofNat_of_zero_le (by omega : 0 ≤ -e)
      obtain rfl : e = -k := by omega
      rw [neg_neg, Int.toNat_natCast, Nat.shiftRight_eq_div_pow, zpow_neg, zpow_natCast,
        ← div_eq_mul_inv]
      have floor := Rat.floor_natCast_div_natCast m (2 ^ k)
      push_cast at floor ⊢
      exact floor.symm
  have nonneg : 0 ≤ (x.parts.1 * 2 ^ x.parts.2 : ℚ) :=
    mul_nonneg (Nat.cast_nonneg _) (zpow_nonneg zero_le_two _)
  unfold truncate number
  dsimp only
  rw [whole]
  split
  next => rw [neg_one_mul, towardZero_neg_of_nonneg nonneg]
  next => rw [one_mul, towardZero_of_nonneg nonneg]

/-! ## Integers between bounds -/

/-- The number of a double cut toward zero and then held between two bounds.  An infinity is held at
the bound on its side. -/
def heldCut (x : Binary64) (lo hi : Int) : Int :=
  if x.isInfinite then (if x.negative then lo else hi)
  else Max.max lo (min hi (towardZero x.number))

theorem saturate_eq_heldCut (number : x.isNaN = false) (lo hi : Int) :
    x.saturate lo hi = x.heldCut lo hi := by
  rw [saturate, heldCut, number, truncate_eq]
  rfl

theorem isInfinite_or_isFinite (number : x.isNaN = false) :
    x.isInfinite = true ∨ x.isInfinite = false ∧ x.isFinite = true := by
  simp only [isNaN, isInfinite, isFinite, decide_eq_true_eq, decide_eq_false_iff_not] at *
  omega

/-- Whatever is below a finite double is a smaller number or negative infinity. -/
theorem lt_finite (finite : y.isFinite = true) (below : x.lt y = true) :
    (x.isInfinite = true ∧ x.negative = true) ∨
      (x.isInfinite = false ∧ x.number < y.number) := by
  have number : x.isNaN = false := by
    simp only [lt, Bool.and_eq_true, Bool.not_eq_true'] at below
    exact below.1.1
  rcases isInfinite_or_isFinite number with infinite | ⟨finite', finite''⟩
  · refine .inl ⟨infinite, ?_⟩
    cases sign : x.negative with
    | true => rfl
    | false =>
      simp only [lt, rank, sign, Bool.false_eq_true, if_false, Bool.and_eq_true,
        decide_eq_true_eq] at below
      simp only [isInfinite, isFinite, decide_eq_true_eq] at infinite finite
      have ranks := below.2
      split at ranks <;> omega
  · exact .inr ⟨finite', number_lt_number finite'' finite below⟩

/-- Whatever is above a finite double is a greater number or positive infinity. -/
theorem finite_lt (finite : y.isFinite = true) (above : y.lt x = true) :
    (x.isInfinite = true ∧ x.negative = false) ∨
      (x.isInfinite = false ∧ y.number < x.number) := by
  have number : x.isNaN = false := by
    simp only [lt, Bool.and_eq_true, Bool.not_eq_true'] at above
    exact above.1.2
  rcases isInfinite_or_isFinite number with infinite | ⟨finite', finite''⟩
  · refine .inl ⟨infinite, ?_⟩
    cases sign : x.negative with
    | false => rfl
    | true =>
      simp only [lt, rank, sign, if_true, Bool.and_eq_true, decide_eq_true_eq] at above
      simp only [isInfinite, isFinite, decide_eq_true_eq] at infinite finite
      have ranks := above.2
      split at ranks <;> omega
  · exact .inr ⟨finite', number_lt_number finite finite'' above⟩

theorem heldCut_of_finite (finite : x.isInfinite = false) (lo hi : Int) :
    x.heldCut lo hi = Max.max lo (min hi (towardZero x.number)) := by
  rw [heldCut, finite]
  rfl

theorem not_isInfinite (finite : x.isFinite = true) : x.isInfinite = false ∧ x.isNaN = false := by
  simp only [isNaN, isInfinite, isFinite, decide_eq_true_eq, decide_eq_false_iff_not] at *
  omega

/-- Holding a double between the ends of a range first does not change the integer, even if the
upper end is beyond the range. -/
theorem heldCut_clamp {lo hi : Int} {least greatest : Binary64} (ordered : lo ≤ hi)
    (finite : least.isFinite = true) (finite' : greatest.isFinite = true)
    (first : least.number = lo) (last : hi ≤ greatest.number) :
    (x.clamp least greatest).heldCut lo hi = x.heldCut lo hi := by
  unfold clamp
  split
  next below =>
    rw [heldCut_of_finite (not_isInfinite finite).1, first, towardZero_intCast]
    rcases lt_finite finite below with ⟨infinite, sign⟩ | ⟨finite', smaller⟩
    · rw [heldCut, infinite, sign]
      simp
    · have cut : towardZero x.number ≤ lo := towardZero_le (first ▸ smaller.le)
      rw [heldCut_of_finite finite']
      omega
  split
  next above =>
    have top : hi ≤ towardZero greatest.number := le_towardZero last
    rw [heldCut_of_finite (not_isInfinite finite').1]
    rcases finite_lt finite' above with ⟨infinite, sign⟩ | ⟨finite'', greater⟩
    · rw [heldCut, infinite, sign]
      simp only [Bool.false_eq_true, if_false, if_true]
      omega
    · have cut : hi ≤ towardZero x.number := le_towardZero (last.trans greater.le)
      rw [heldCut_of_finite finite'']
      omega
  next => rfl

theorem le_heldCut {lo hi : Int} (ordered : lo ≤ hi) (x : Binary64) :
    lo ≤ x.heldCut lo hi ∧ x.heldCut lo hi ≤ hi := by
  unfold heldCut
  split
  next => split <;> omega
  next => omega

theorem isNaN_clamp {least greatest : Binary64} (number : x.isNaN = false)
    (finite : least.isFinite = true) (finite' : greatest.isFinite = true) :
    (x.clamp least greatest).isNaN = false := by
  unfold clamp
  split
  next => exact (not_isInfinite finite).2
  split
  next => exact (not_isInfinite finite').2
  next => exact number

end Binary64

/-! ## Rounding natural numbers -/

namespace Binary.Format

/-- A word stands for a natural number. -/
def Stands (w n : Nat) : Prop :=
  ∃ m p, Canonical m p ∧ w = p * 2 ^ 52 + m ∧ m * 2 ^ p = n * 2 ^ lowest

variable {a k w n : Nat}

theorem Stands.word_lt (h : Stands w n) : w < 2047 * 2 ^ 52 := by
  obtain ⟨m, p, canonical, rfl, -⟩ := h
  exact canonical.word_lt

/-- A natural number is packed to the word that stands for it, if there is one. -/
theorem Stands.pack_eq (h : Stands w n) : double.pack n 0 = w := by
  obtain ⟨m, p, canonical, rfl, same⟩ := h
  have packed := pack_canonical canonical same.symm
  rwa [sub_self] at packed

/-- A natural number that a double holds is packed without rounding. -/
theorem stands_pack {x : Binary64} (h : x.Holds n) :
    Stands (double.pack n 0) n := by
  obtain ⟨m, p, canonical, -, same⟩ := h
  have stands : Stands (p * 2 ^ 52 + m) n := ⟨m, p, canonical, rfl, same⟩
  rwa [stands.pack_eq]

theorem halfEven_bounds (a k : Nat) : a >>> k ≤ halfEven a k ∧ halfEven a k ≤ a >>> k + 1 := by
  unfold halfEven
  dsimp only
  split <;> omega

/-- The significand has 53 digits, or one more where the digits carry over. -/
theorem halfEven_significand (nonzero : a ≠ 0) {s : Nat} (digits : a.log2 = 53 + s) :
    2 ^ 52 ≤ halfEven a (s + 1) ∧ halfEven a (s + 1) ≤ 2 ^ 53 := by
  obtain ⟨low, high⟩ := (Nat.log2_eq_iff nonzero).mp digits
  obtain ⟨least, most⟩ := halfEven_bounds a (s + 1)
  have quotient : 2 ^ 52 ≤ a >>> (s + 1) ∧ a >>> (s + 1) < 2 ^ 53 := by
    rw [Nat.shiftRight_eq_div_pow, Nat.le_div_iff_mul_le (Nat.two_pow_pos _),
      Nat.div_lt_iff_lt_mul (Nat.two_pow_pos _), ← Nat.pow_add, ← Nat.pow_add]
    exact ⟨(congrArg (2 ^ ·) (by omega)).trans_le low,
      high.trans_eq (congrArg (2 ^ ·) (by omega))⟩
  omega

/-- A number with more digits than a significand is packed to its rounded digits. -/
theorem pack_long (nonzero : a ≠ 0) {s : Nat} (digits : a.log2 = 53 + s) (near : s ≤ 900) :
    double.pack a 0 = (s + 1 + lowest) * 2 ^ 52 + halfEven a (s + 1) := by
  obtain ⟨least, most⟩ := halfEven_significand nonzero digits
  have known : lowest = 1074 := rfl
  have fraction : (double.fraction : Int) = 52 := rfl
  have place : max (0 + (a.log2 : Int) - double.fraction) double.minExp = s + 1 := by
    rw [minExp_double, fraction, digits]
    omega
  have count : ((s : Int) + 1 - 0).toNat = s + 1 := by omega
  have whole : ((s : Int) + 1 - -(lowest : Int)).toNat = s + 1 + lowest := by omega
  have unit : (s + 1 + lowest) <<< double.fraction = (s + 1 + lowest) * 2 ^ 52 :=
    Nat.shiftLeft_eq ..
  unfold pack
  dsimp only
  rw [if_neg nonzero, place, if_neg (by omega), count, minExp_double, whole, unit, infinity_double]
  exact Nat.min_eq_left (by omega)

theorem stands_pack_long (nonzero : a ≠ 0) {s : Nat} (digits : a.log2 = 53 + s)
    (near : s ≤ 900) : Stands (double.pack a 0) (halfEven a (s + 1) * 2 ^ (s + 1)) := by
  obtain ⟨least, most⟩ := halfEven_significand nonzero digits
  have known : lowest = 1074 := rfl
  rw [pack_long nonzero digits near]
  rcases Nat.lt_or_ge (halfEven a (s + 1)) (2 ^ 53) with full | carried
  · exact ⟨_, s + 1 + lowest, ⟨full, .inl least, by omega⟩, rfl,
      by rw [Nat.pow_add, Nat.mul_assoc]⟩
  · have all : halfEven a (s + 1) = 2 * 2 ^ 52 := by omega
    refine ⟨2 ^ 52, s + 1 + lowest + 1, ⟨by omega, .inl (Nat.le_refl _), by omega⟩, ?_, ?_⟩
    · rw [all]
      omega
    · rw [all, Nat.pow_succ, Nat.pow_add]
      ring

/-- Rounding does not go beyond the next power of two, and not to zero. -/
theorem exists_stands_pack (small : a < 2 ^ k) (near : k ≤ 900) :
    ∃ n, Stands (double.pack a 0) n ∧ n ≤ 2 ^ k ∧ (n = 0 ↔ a = 0) := by
  by_cases short : a < 2 ^ 53
  · exact ⟨a, stands_pack (Binary64.holds_ofNat short), small.le, .rfl⟩
  have nonzero : a ≠ 0 := by omega
  obtain ⟨s, digits⟩ : ∃ s, a.log2 = 53 + s :=
    Nat.exists_eq_add_of_le ((Nat.le_log2 nonzero).mpr (Nat.not_lt.mp short))
  have below : 53 + s < k := digits ▸ (Nat.log2_lt nonzero).mpr small
  obtain ⟨least, most⟩ := halfEven_significand nonzero digits
  refine ⟨_, stands_pack_long nonzero digits (by omega), ?_, ?_⟩
  · calc halfEven a (s + 1) * 2 ^ (s + 1) ≤ 2 ^ 53 * 2 ^ (s + 1) := Nat.mul_le_mul_right _ most
      _ = 2 ^ (53 + (s + 1)) := (Nat.pow_add ..).symm
      _ ≤ 2 ^ k := Nat.pow_le_pow_right Nat.two_pos (by omega)
  · have positive := Nat.two_pow_pos (s + 1)
    refine iff_of_false (Nat.mul_ne_zero ?_ positive.ne') nonzero
    omega

end Binary.Format

/-! ## Integers -/

namespace Binary64

/-- The double is the integer, and zero is positive. -/
def IsInt (x : Binary64) (n : Int) : Prop := ∃ w, Stands w n.natAbs ∧ x = ofWord (n < 0) w

variable {x y : Binary64} {n : Int} {k : Nat}

theorem fields_ofWord (sign : Bool) {w : Nat} (finite : w < 2047 * 2 ^ 52) :
    (ofWord sign w).word = w ∧ (ofWord sign w).negative = sign := by
  have unit : 1 <<< 63 = 2 ^ 63 := by decide
  simp only [word, negative, ofWord, UInt64.toNat_ofNat', unit]
  cases sign with
  | false => simp only [Bool.false_eq_true, if_false, decide_eq_false_iff_not]; omega
  | true => simp only [if_true, decide_eq_true_eq]; omega

theorem IsInt.isFinite (h : x.IsInt n) : x.isFinite = true := by
  obtain ⟨w, stands, rfl⟩ := h
  have finite := stands.word_lt
  simpa only [Binary64.isFinite, (fields_ofWord _ finite).1, infinity_double, decide_eq_true_eq]

theorem IsInt.number (h : x.IsInt n) : x.number = n := by
  obtain ⟨w, stands, rfl⟩ := h
  obtain ⟨word, sign⟩ := fields_ofWord (decide (n < 0)) stands.word_lt
  obtain ⟨m, p, canonical, rfl, same⟩ := stands
  have parts : (ofWord (n < 0) (p * 2 ^ 52 + m)).parts = (m, (p : Int) - lowest) := by
    rw [Binary64.parts, word, unpack_canonical canonical]
  have unit : (2 : ℚ) ^ lowest ≠ 0 := pow_ne_zero _ two_ne_zero
  have signed : (if decide (n < 0) then -1 else 1) * (n.natAbs : Int) = n := by
    by_cases negative : n < 0
    · simp only [negative, decide_true, if_true]
      omega
    · simp only [negative, decide_false, Bool.false_eq_true, if_false]
      omega
  rw [number_of_parts parts, sign, same, Nat.cast_mul, ← mul_assoc, signed]
  push_cast
  exact mul_div_cancel_right₀ _ unit

theorem IsInt.heldCut_eq (h : x.IsInt n) (lo hi : Int) :
    x.heldCut lo hi = Max.max lo (min hi n) := by
  rw [heldCut_of_finite (not_isInfinite h.isFinite).1, h.number, towardZero_intCast]

/-- An integer that a double is, is rounded to it. -/
theorem IsInt.ofInt_eq (h : x.IsInt n) : ofInt n = x := by
  obtain ⟨w, stands, rfl⟩ := h
  rw [ofInt, ofDyadic, stands.pack_eq]

theorem isInt_ofInt (h : y.Holds n.natAbs) : (ofInt n).IsInt n := ⟨_, stands_pack h, rfl⟩

theorem exists_isInt_ofInt (small : n.natAbs < 2 ^ k) (near : k ≤ 900) :
    ∃ N, (ofInt n).IsInt N ∧ N.natAbs ≤ 2 ^ k ∧ (N < 0 ↔ n < 0) := by
  obtain ⟨a, stands, within, zero⟩ := exists_stands_pack small near
  by_cases negative : n < 0
  · have below : -(a : Int) < 0 := by omega
    refine ⟨-a, ⟨double.pack n.natAbs 0, ?_, ?_⟩, by omega, iff_of_true below negative⟩
    · rwa [Int.natAbs_neg, Int.natAbs_natCast]
    · simp only [ofInt, ofDyadic, negative, below]
  · have above : ¬ (a : Int) < 0 := by omega
    refine ⟨a, ⟨double.pack n.natAbs 0, ?_, ?_⟩, by omega, iff_of_false above negative⟩
    · rwa [Int.natAbs_natCast]
    · simp only [ofInt, ofDyadic, negative, above]

end Binary64

end Fieldbus
