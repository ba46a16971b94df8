import Fieldbus.Proofs.Binary.Numbers
import Fieldbus.Proofs.Register.Packing
import Fieldbus.Register.DataType

/-!
# The codec of integers

An integer type reads words as the integer that they hold, rounded to a double, and writes a double
as the words of its number, cut toward zero and held between the ends of the type's range
(`DataType.exists_decode_eq`, `DataType.encode_eq`).

Each integer of 16 or 32 bits is a double, so these types lose nothing (`DataType.Roundtrips`).  Not
each one of 64 bits is, and the rounding may go beyond the greatest one.  The greatest one is rounded
to the same double, so reading, writing and reading again gives what the first reading gave
(`DataType.Settles`).  `DataType.integers_roundtrip` puts the types together.
-/

namespace Fieldbus.DataType

open Binary64

variable {type : DataType} {lo hi : Int}

/-! ## Two's complement -/

/-- The integers of a type are unsigned, or as many of them are negative as are not. -/
structure Halved (type : DataType) (lo hi : Int) (half : Nat) : Prop where
  positive : 0 < half
  whole : 1 <<< (16 * type.width) = 2 * half
  sign : 1 <<< (16 * type.width - 1) = half
  ends : lo = 0 ∧ hi + 1 = 2 * half ∨ lo = -half ∧ hi + 1 = half

theorem exists_halved (bounds : type.bounds? = some (lo, hi)) : ∃ half, Halved type lo hi half := by
  cases type with
  | bool | float32 | float64 => cases bounds
  | uint16 => cases bounds; exact ⟨2 ^ 15, by decide, rfl, rfl, .inl ⟨rfl, rfl⟩⟩
  | int16 => cases bounds; exact ⟨2 ^ 15, by decide, rfl, rfl, .inr ⟨rfl, rfl⟩⟩
  | uint32 => cases bounds; exact ⟨2 ^ 31, by decide, rfl, rfl, .inl ⟨rfl, rfl⟩⟩
  | int32 => cases bounds; exact ⟨2 ^ 31, by decide, rfl, rfl, .inr ⟨rfl, rfl⟩⟩
  | uint64 => cases bounds; exact ⟨2 ^ 63, by decide, rfl, rfl, .inl ⟨rfl, rfl⟩⟩
  | int64 => cases bounds; exact ⟨2 ^ 63, by decide, rfl, rfl, .inr ⟨rfl, rfl⟩⟩

/-- The low words of an integer, as a number. -/
def lowWords (type : DataType) (n : Int) : Nat := (n % (1 <<< (16 * type.width) : Nat)).toNat

variable {half : Nat}

theorem Halved.lowWords_eq (h : Halved type lo hi half) {n : Int} (within : lo ≤ n ∧ n ≤ hi) :
    (type.lowWords n : Int) = if n < 0 then n + 2 * half else n := by
  obtain ⟨positive, whole, -, ends⟩ := h
  rw [lowWords, whole, Nat.cast_mul, Nat.cast_two]
  split
  next negative =>
    have wrapped : n % (2 * half) = n + 2 * half := by
      rw [← Int.add_emod_right, Int.emod_eq_of_lt (by omega) (by omega)]
    rw [wrapped, Int.toNat_of_nonneg (by omega)]
  next =>
    rw [Int.emod_eq_of_lt (by omega) (by omega), Int.toNat_of_nonneg (by omega)]

theorem Halved.interpret_eq (h : Halved type lo hi half) (raw : Nat) :
    interpret lo type.width raw = if lo < 0 ∧ half ≤ raw then (raw : Int) - 2 * half else raw := by
  rw [interpret, h.sign, h.whole, Nat.cast_mul, Nat.cast_two]

/-- Each integer between the bounds is read off its low words. -/
theorem interpret_lowWords (bounds : type.bounds? = some (lo, hi)) {n : Int}
    (within : lo ≤ n ∧ n ≤ hi) : interpret lo type.width (type.lowWords n) = n := by
  obtain ⟨half, halved⟩ := exists_halved bounds
  have low := halved.lowWords_eq within
  have ends := halved.ends
  have positive := halved.positive
  rw [halved.interpret_eq]
  split at low <;> split <;> omega

/-- Each pattern of words is an integer between the bounds, and its low words. -/
theorem interpret_bounds (bounds : type.bounds? = some (lo, hi)) {raw : Nat}
    (fits : raw < 1 <<< (16 * type.width)) :
    (lo ≤ interpret lo type.width raw ∧ interpret lo type.width raw ≤ hi) ∧
      type.lowWords (interpret lo type.width raw) = raw := by
  obtain ⟨half, halved⟩ := exists_halved bounds
  have ends := halved.ends
  have positive := halved.positive
  have shape := halved.interpret_eq raw
  rw [halved.whole] at fits
  generalize interpret lo type.width raw = n at shape ⊢
  have within : lo ≤ n ∧ n ≤ hi := by
    split at shape <;> omega
  have low := halved.lowWords_eq within
  refine ⟨within, ?_⟩
  split at shape <;> split at low <;> omega

/-! ## Reading and writing -/

theorem decode_eq (bounds : type.bounds? = some (lo, hi)) {words : List UInt16}
    (length : words.length = type.width) (order : ByteOrder) :
    type.decode words order none =
      .ok (.ofInt (interpret lo type.width (packNat (order.arrange words)))) := by
  have integer : type ≠ .bool := by
    rintro rfl
    cases bounds
  have whole : words.take type.width = words := List.take_of_length_le length.le
  rw [decode, if_neg (by omega), if_neg integer, whole]
  cases type <;> cases bounds <;> rfl

/-- The ends of the range of a type are doubles, but the greatest integer of 64 bits is rounded to
the one behind it. -/
theorem range_ends (bounds : type.bounds? = some (lo, hi)) :
    type.range = (.ofInt lo, .ofInt hi) ∧ (ofInt lo).IsInt lo ∧
      (ofInt hi).IsInt (if type.width = 4 then hi + 1 else hi) := by
  have short {n : Int} (small : n.natAbs < 2 ^ 53) : (ofInt n).IsInt n :=
    isInt_ofInt (holds_ofNat small)
  cases type with
  | bool | float32 | float64 => cases bounds
  | uint16 | int16 | uint32 | int32 =>
    cases bounds
    exact ⟨rfl, short (by decide), short (by decide)⟩
  | uint64 =>
    cases bounds
    have rounded : ofInt 0xffffffffffffffff = ofInt (2 ^ 64) := by decide +kernel
    refine ⟨rfl, short (by decide), ?_⟩
    rw [rounded]
    exact isInt_ofInt (holds_ofDyadic (a := 1) (by decide) 64 (by decide))
  | int64 =>
    cases bounds
    have rounded : ofInt 0x7fffffffffffffff = ofInt (2 ^ 63) := by decide +kernel
    refine ⟨rfl, isInt_ofInt (holds_ofDyadic (a := 1) (by decide) 63 (by decide)), ?_⟩
    rw [rounded]
    exact isInt_ofInt (holds_ofDyadic (a := 1) (by decide) 63 (by decide))

theorem lo_le_hi (bounds : type.bounds? = some (lo, hi)) : lo ≤ hi := by
  obtain ⟨half, positive, -, -, ends⟩ := exists_halved bounds
  omega

theorem encode_eq (bounds : type.bounds? = some (lo, hi)) {v : Binary64} (number : v.isNaN = false)
    (order : ByteOrder) :
    type.encode v order =
      .ok (order.arrange (unpackNat (type.lowWords (v.heldCut lo hi)) type.width)) := by
  have integer : type ≠ .bool := by
    rintro rfl
    cases bounds
  have packed (x : Binary64) : type.toPacked x = type.lowWords (x.saturate lo hi) := by
    cases type <;> cases bounds <;> rfl
  obtain ⟨range, least, greatest⟩ := range_ends bounds
  have top : (hi : ℚ) ≤ (ofInt hi).number := by
    rw [greatest.number]
    split
    next => exact_mod_cast Int.le_add_one (Int.le_refl hi)
    next => exact le_rfl
  have held := heldCut_clamp (x := v) (lo_le_hi bounds) least.isFinite greatest.isFinite
    least.number top
  rw [encode, number, range]
  dsimp only
  rw [if_neg integer, packed, saturate_eq_heldCut, held]
  · rfl
  · exact isNaN_clamp number least.isFinite greatest.isFinite

/-- What was written is read as the integer that was held between the bounds. -/
theorem decode_encoded (bounds : type.bounds? = some (lo, hi)) (order : ByteOrder) {n : Int}
    (within : lo ≤ n ∧ n ≤ hi) :
    type.decode (order.arrange (unpackNat (type.lowWords n) type.width)) order none =
      .ok (.ofInt n) := by
  have unit : 1 <<< (16 * type.width) = 2 ^ (16 * type.width) := by
    rw [Nat.shiftLeft_eq, Nat.one_mul]
  have length : (order.arrange (unpackNat (type.lowWords n) type.width)).length = type.width := by
    rw [ByteOrder.length_arrange, length_unpackNat]
  have fits : type.lowWords n < 2 ^ (16 * type.width) := by
    have positive : (0 : Int) < ((1 <<< (16 * type.width) : Nat) : Int) := by
      rw [unit]
      exact_mod_cast Nat.two_pow_pos _
    have below := Int.emod_lt_of_pos n positive
    have nonneg := Int.emod_nonneg n positive.ne'
    rw [lowWords, ← unit]
    omega
  rw [decode_eq bounds length, ByteOrder.arrange_arrange, packNat_unpackNat,
    Nat.mod_eq_of_lt fits, interpret_lowWords bounds within]

/-- Words are read as an integer between the bounds, and are the words of it. -/
theorem exists_decode_eq (bounds : type.bounds? = some (lo, hi)) {words : List UInt16}
    (length : words.length = type.width) (order : ByteOrder) :
    ∃ n, (lo ≤ n ∧ n ≤ hi) ∧ type.decode words order none = .ok (.ofInt n) ∧
      order.arrange (unpackNat (type.lowWords n) type.width) = words := by
  have arranged : (order.arrange words).length = type.width := by
    rw [ByteOrder.length_arrange, length]
  have fits : packNat (order.arrange words) < 1 <<< (16 * type.width) := by
    rw [Nat.shiftLeft_eq, Nat.one_mul, ← arranged]
    exact packNat_lt _
  obtain ⟨within, low⟩ := interpret_bounds bounds fits
  refine ⟨_, within, decode_eq bounds length order, ?_⟩
  rw [low, ← arranged, unpackNat_packNat, ByteOrder.arrange_arrange]

/-! ## Integers of 16 and 32 bits -/

/-- The integer types whose integers are doubles, and the ends of their ranges. -/
inductive Exact : DataType → Int → Int → Prop where
  | uint16 : Exact .uint16 0 (2 ^ 16 - 1)
  | int16 : Exact .int16 (-2 ^ 15) (2 ^ 15 - 1)
  | uint32 : Exact .uint32 0 (2 ^ 32 - 1)
  | int32 : Exact .int32 (-2 ^ 31) (2 ^ 31 - 1)

theorem Exact.bounds (exact : Exact type lo hi) : type.bounds? = some (lo, hi) := by
  cases exact <;> rfl

theorem Exact.isInt (exact : Exact type lo hi) {n : Int} (within : lo ≤ n ∧ n ≤ hi) :
    (ofInt n).IsInt n := by
  have small : n.natAbs < 2 ^ 53 := by
    cases exact <;> omega
  exact isInt_ofInt (holds_ofNat small)

/-- Words are written as they were read, and each number is read as its integer part, held between
the ends of the range. -/
structure Roundtrips (type : DataType) (lo hi : Int) (order : ByteOrder) : Prop where
  words : ∀ words : List UInt16, words.length = type.width →
    ∃ x, type.decode words order none = .ok x ∧ type.encode x order = .ok words
  numbers : ∀ v : Binary64, v.isNaN = false →
    ∃ words x, type.encode v order = .ok words ∧ words.length = type.width ∧
      type.decode words order none = .ok x ∧ x.isFinite = true ∧ x.number = v.heldCut lo hi

theorem Exact.roundtrips (exact : Exact type lo hi) (order : ByteOrder) :
    Roundtrips type lo hi order where
  words words length := by
    obtain ⟨n, within, read, same⟩ := exists_decode_eq exact.bounds length order
    have integer := exact.isInt within
    have held : (ofInt n).heldCut lo hi = n := by
      rw [integer.heldCut_eq]
      omega
    refine ⟨ofInt n, read, ?_⟩
    rw [encode_eq exact.bounds (not_isInfinite integer.isFinite).2, held, same]
  numbers v number := by
    have within := le_heldCut (lo_le_hi exact.bounds) v
    have integer := exact.isInt within
    refine ⟨_, _, encode_eq exact.bounds number order, ?_, decode_encoded exact.bounds order within,
      integer.isFinite, integer.number⟩
    rw [ByteOrder.length_arrange, length_unpackNat]

/-! ## Integers of 64 bits -/

/-- An integer of 64 bits is rounded to one between the bounds, or to the one behind them. -/
theorem exists_isInt_within (bounds : type.bounds? = some (lo, hi)) (wide : type.width = 4) {n : Int}
    (within : lo ≤ n ∧ n ≤ hi) : ∃ N, (ofInt n).IsInt N ∧ lo ≤ N ∧ N ≤ hi + 1 := by
  obtain ⟨-, least, -⟩ := range_ends bounds
  cases type with
  | bool | uint16 | int16 | uint32 | int32 | float32 => cases wide
  | float64 => cases bounds
  | uint64 =>
    cases bounds
    have small : n.natAbs < 2 ^ 64 := by omega
    obtain ⟨N, integer, near, sign⟩ := exists_isInt_ofInt small (by decide)
    exact ⟨N, integer, by omega, by omega⟩
  | int64 =>
    cases bounds
    -- The least integer has one digit more than the others, and is a double.
    by_cases extreme : n = -0x8000000000000000
    · exact ⟨n, extreme ▸ least, by omega, by omega⟩
    · have small : n.natAbs < 2 ^ 63 := by omega
      obtain ⟨N, integer, near, sign⟩ := exists_isInt_ofInt small (by decide)
      exact ⟨N, integer, by omega, by omega⟩

/-- Writing what was rounded loses no more. -/
theorem ofInt_heldCut (bounds : type.bounds? = some (lo, hi)) (wide : type.width = 4) {n : Int}
    (within : lo ≤ n ∧ n ≤ hi) : ofInt ((ofInt n).heldCut lo hi) = ofInt n := by
  obtain ⟨-, -, greatest⟩ := range_ends bounds
  rw [if_pos wide] at greatest
  obtain ⟨N, integer, above, below⟩ := exists_isInt_within bounds wide within
  have ordered := lo_le_hi bounds
  rw [integer.heldCut_eq]
  rcases Int.lt_or_le hi N with beyond | inside
  · have last : Max.max lo (min hi N) = hi := by omega
    obtain rfl : N = hi + 1 := by omega
    rw [last, ← greatest.ofInt_eq, integer.ofInt_eq]
  · have same : Max.max lo (min hi N) = N := by omega
    rw [same, integer.ofInt_eq]

/-- Reading rounds, and reading what was written of it gives the same number again. -/
structure Settles (type : DataType) (order : ByteOrder) : Prop where
  again : ∀ words : List UInt16, words.length = 4 →
    ∃ x written, type.decode words order none = .ok x ∧ type.encode x order = .ok written ∧
      type.decode written order none = .ok x
  rounds : ∃ words words' : List UInt16, words.length = 4 ∧ words'.length = 4 ∧ words ≠ words' ∧
    type.decode words order none = type.decode words' order none

theorem settles (bounds : type.bounds? = some (lo, hi)) (wide : type.width = 4)
    (order : ByteOrder) : Settles type order where
  again words length := by
    obtain ⟨n, within, read, -⟩ := exists_decode_eq bounds (length.trans wide.symm) order
    obtain ⟨N, integer, -⟩ := exists_isInt_within bounds wide within
    have written := encode_eq bounds (not_isInfinite integer.isFinite).2 order
    have again := decode_encoded bounds order (le_heldCut (lo_le_hi bounds) (ofInt n))
    rw [ofInt_heldCut bounds wide within] at again
    exact ⟨ofInt n, _, read, written, again⟩
  rounds := by
    refine ⟨order.arrange [0x7fff, 0xffff, 0xffff, 0xffff],
      order.arrange [0x7fff, 0xffff, 0xffff, 0xfffe], ?_⟩
    cases type with
    | bool | uint16 | int16 | uint32 | int32 | float32 => cases wide
    | float64 => cases bounds
    | uint64 | int64 => cases order <;> decide +kernel

/-- The codec of integers is exact up to 32 bits, and settles after one rounding at 64 bits. -/
theorem integers_roundtrip (order : ByteOrder) :
    (∀ type lo hi, Exact type lo hi → Roundtrips type lo hi order) ∧
      Settles uint64 order ∧ Settles int64 order :=
  ⟨fun _ _ _ exact => exact.roundtrips order, settles rfl rfl order, settles rfl rfl order⟩

/-- The words of the greatest integer of 32 bits, a number beyond it, and the words of the greatest
integer of 64 bits. -/
theorem integers_roundtrip_in_cdab :
    (∃ x, int32.decode [0xffff, 0x7fff] .cdab none = .ok x ∧
      int32.encode x .cdab = .ok [0xffff, 0x7fff]) ∧
    (∃ words x, int32.encode (.ofInt (10 ^ 10)) .cdab = .ok words ∧ words.length = 2 ∧
      int32.decode words .cdab none = .ok x ∧ x.isFinite = true ∧
      x.number = (2 ^ 31 - 1 : Int)) ∧
    ∃ x written, uint64.decode [0xffff, 0xffff, 0xffff, 0xffff] .cdab none = .ok x ∧
      uint64.encode x .cdab = .ok written ∧ uint64.decode written .cdab none = .ok x := by
  obtain ⟨exact, settles, -⟩ := integers_roundtrip .cdab
  have roundtrips := exact int32 _ _ .int32
  have integer : (ofInt (10 ^ 10)).IsInt (10 ^ 10) := isInt_ofInt (holds_ofNat (by decide))
  have held : (ofInt (10 ^ 10)).heldCut (-2 ^ 31) (2 ^ 31 - 1) = 2 ^ 31 - 1 := by
    rw [integer.heldCut_eq]
    rfl
  refine ⟨roundtrips.words _ rfl, ?_, settles.again _ rfl⟩
  rw [← held]
  exact roundtrips.numbers _ (not_isInfinite integer.isFinite).2

end Fieldbus.DataType
