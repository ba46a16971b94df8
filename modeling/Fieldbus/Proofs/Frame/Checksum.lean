import Mathlib.Algebra.Group.Nat.Even
import Mathlib.Data.Nat.Bitwise
import Mathlib.Tactic.Ring
import Fieldbus.Frame.Crc
import Fieldbus.Pdu.Basic

/-!
# The algebra of the checksum

The checksum register is a vector of sixteen bits.  A step is linear over exclusive or
(`Crc.bitStep_xor`) and loses nothing (`Crc.bitStep_eq_zero_iff`).

*Bits in the order of transmission.*  Bytes are sent with their lowest bit first.  The register
takes one bit after another (`Crc.push`), and what it holds after the bits of some bytes is what
it holds after the bytes (`Crc.foldl_byteStep`).  Up to sixteen bits may just as well be taken at
once (`Crc.residue_eq`).

*Frames.*  The two bytes after a body are its checksum if and only if the checksum of the whole is
zero (`Crc.checksum_append_eq_zero_iff`).  A frame that arrives changed has the checksum of what
was sent, changed by the residue of the flipped bits (`Crc.checksum_received`).  So a change is
found if and only if the residue of the flipped bits is not zero.
-/

namespace Fieldbus.Crc

/-! ## Steps -/

theorem and_one_eq_one_iff (c : UInt16) : c &&& 1 = 1 ↔ c.toNat.testBit 0 = true := by
  rw [← UInt16.toNat_inj, UInt16.toNat_and, Nat.testBit_zero, decide_eq_true_iff]
  exact Eq.congr_left (Nat.and_one_is_mod _)

/-- What a step adds to the shifted register. -/
def feedback (c : UInt16) : UInt16 := if c.toNat.testBit 0 then polynomial else 0

theorem bitStep_eq (c : UInt16) : bitStep c = (c >>> 1) ^^^ feedback c := by
  simp only [bitStep, feedback, and_one_eq_one_iff]
  split
  · rfl
  · exact UInt16.xor_zero.symm

theorem feedback_xor (a b : UInt16) : feedback (a ^^^ b) = feedback a ^^^ feedback b := by
  simp only [feedback, UInt16.toNat_xor, Nat.testBit_xor]
  cases a.toNat.testBit 0 with
  | false => simp
  | true =>
    cases b.toNat.testBit 0 with
    | false => simp
    | true => simp

/-- A step is linear. -/
theorem bitStep_xor (a b : UInt16) : bitStep (a ^^^ b) = bitStep a ^^^ bitStep b := by
  simp only [bitStep_eq, UInt16.shiftRight_xor, feedback_xor]
  ac_rfl

@[simp] theorem bitStep_zero : bitStep 0 = 0 := rfl

/-- A step loses nothing: it moves a set lowest bit to the top. -/
theorem bitStep_eq_zero_iff (c : UInt16) : bitStep c = 0 ↔ c = 0 := by
  constructor
  · intro zero
    have small := c.toNat_lt
    have shifted : (c >>> 1).toNat = c.toNat / 2 := by
      rw [UInt16.toNat_shiftRight]
      exact Nat.shiftRight_one _
    rw [bitStep_eq, feedback] at zero
    split at zero
    next =>
      -- The shifted register has no top bit, and the polynomial has one.
      have same : (c >>> 1).toNat = polynomial.toNat :=
        congrArg UInt16.toNat (UInt16.xor_eq_zero_iff.mp zero)
      have top : polynomial.toNat = 0xA001 := rfl
      omega
    next even =>
      rw [UInt16.xor_zero, ← UInt16.toNat_inj, shifted] at zero
      rw [Nat.testBit_zero, decide_eq_true_iff] at even
      rw [← UInt16.toNat_inj]
      change c.toNat / 2 = 0 at zero
      change c.toNat = 0
      omega
  · rintro rfl
    rfl

theorem bitSteps_eq_zero_iff (count : Nat) (c : UInt16) : bitSteps c count = 0 ↔ c = 0 := by
  induction count generalizing c with
  | zero => rfl
  | succ count ih => rw [bitSteps, ih, bitStep_eq_zero_iff]

/-! ## Bits in the order of transmission -/

/-- The bits of bytes as they are sent, the lowest bit of each byte first. -/
def transmitted (bytes : List UInt8) : List Bool :=
  bytes.flatMap fun b => (List.range 8).map b.toNat.testBit

/-- The number whose binary digits are bits, lowest first. -/
def number : List Bool → Nat
  | [] => 0
  | bit :: rest => bit.toNat + 2 * number rest

theorem number_lt (bits : List Bool) : number bits < 2 ^ bits.length := by
  induction bits with
  | nil => decide
  | cons bit rest ih =>
    have := bit.toNat_lt
    rw [number, List.length_cons, Nat.pow_succ]
    omega

theorem number_append (low high : List Bool) :
    number (low ++ high) = number low + 2 ^ low.length * number high := by
  induction low with
  | nil => simp [number]
  | cons bit rest ih =>
    rw [List.cons_append, number, ih, number, List.length_cons, Nat.pow_succ]
    ring

theorem number_eq_zero_iff (bits : List Bool) : number bits = 0 ↔ true ∉ bits := by
  induction bits with
  | nil => simp [number]
  | cons bit rest ih =>
    cases bit with
    | false => simp [number, ih]
    | true => simp [number]

theorem number_testBit (n count : Nat) :
    number ((List.range count).map n.testBit) = n % 2 ^ count := by
  induction count generalizing n with
  | zero => simp [number, Nat.mod_one]
  | succ count ih =>
    have rest : (List.range count).map (n.testBit ∘ Nat.succ) =
        (List.range count).map (n / 2).testBit := by
      apply List.map_congr_left
      intro i _
      exact Nat.testBit_succ n i
    rw [List.range_succ_eq_map, List.map_cons, List.map_map, rest, number, ih, Nat.pow_succ',
      Nat.mod_mul, Nat.testBit_zero]
    rcases Nat.mod_two_eq_zero_or_one n with even | odd
    · simp [even]
    · simp [odd]

theorem length_transmitted (bytes : List UInt8) :
    (transmitted bytes).length = 8 * bytes.length := by
  induction bytes with
  | nil => rfl
  | cons b rest ih =>
    simp only [transmitted, List.flatMap_cons, List.length_append, List.length_map,
      List.length_range, List.length_cons] at ih ⊢
    omega

theorem transmitted_append (before after : List UInt8) :
    transmitted (before ++ after) = transmitted before ++ transmitted after :=
  List.flatMap_append

theorem number_transmitted_byte (b : UInt8) : number (transmitted [b]) = b.toNat := by
  rw [transmitted, List.flatMap_cons, List.flatMap_nil, List.append_nil, number_testBit]
  exact Nat.mod_eq_of_lt b.toNat_lt

/-! ## The register after bits -/

/-- The register after one bit. -/
def push (c : UInt16) (bit : Bool) : UInt16 := bitStep (c ^^^ bit.toUInt16)

/-- The register after bits. -/
def residue (c : UInt16) (bits : List Bool) : UInt16 := bits.foldl push c

theorem residue_append (c : UInt16) (before after : List Bool) :
    residue c (before ++ after) = residue (residue c before) after :=
  List.foldl_append

theorem ofNat_bit (bit : Bool) (n : Nat) :
    UInt16.ofNat (bit.toNat + 2 * n) = bit.toUInt16 ^^^ UInt16.ofNat (2 * n) := by
  cases bit with
  | false => simp [Bool.toUInt16]
  | true =>
    have next : 2 * n ^^^ 1 = 2 * n + 1 := Nat.xor_one_of_even (even_two_mul n)
    rw [Bool.toNat_true, Nat.add_comm, ← next, UInt16.ofNat_xor, UInt16.xor_comm]
    rfl

/-- A register without its lowest bit is only shifted. -/
theorem bitStep_double {n : Nat} (small : n < 2 ^ 15) :
    bitStep (UInt16.ofNat (2 * n)) = UInt16.ofNat n := by
  have whole : (UInt16.ofNat (2 * n)).toNat = 2 * n :=
    UInt16.toNat_ofNat_of_lt (by simp only [UInt16.size]; omega)
  have half : (UInt16.ofNat n).toNat = n :=
    UInt16.toNat_ofNat_of_lt (by simp only [UInt16.size]; omega)
  rw [bitStep_eq, feedback, whole, if_neg (by simp), UInt16.xor_zero, ← UInt16.toNat_inj,
    UInt16.toNat_shiftRight, whole, half]
  change (2 * n) >>> 1 = n
  rw [Nat.shiftRight_one]
  omega

/-- Up to sixteen bits may be taken at once. -/
theorem residue_eq {bits : List Bool} (few : bits.length ≤ 16) (c : UInt16) :
    residue c bits = bitSteps (c ^^^ UInt16.ofNat (number bits)) bits.length := by
  induction bits generalizing c with
  | nil => exact UInt16.xor_zero.symm
  | cons bit rest ih =>
    rw [List.length_cons] at few
    have small : number rest < 2 ^ 15 :=
      (number_lt rest).trans_le (Nat.pow_le_pow_right (by decide) (by omega))
    have step : bitStep (c ^^^ UInt16.ofNat (number (bit :: rest))) =
        push c bit ^^^ UInt16.ofNat (number rest) := by
      rw [number, ofNat_bit, ← UInt16.xor_assoc, bitStep_xor, bitStep_double small, push]
    rw [List.length_cons, bitSteps, step, ← ih (by omega)]
    rfl

theorem residue_zeros (c : UInt16) (count : Nat) :
    residue c (List.replicate count false) = bitSteps c count := by
  induction count generalizing c with
  | zero => rfl
  | succ count ih =>
    have shifted : push c false = bitStep c := congrArg bitStep UInt16.xor_zero
    rw [List.replicate_succ, bitSteps, ← ih, ← shifted]
    rfl

/-- The register is linear in what it held and what it takes. -/
theorem residue_xor (a b : UInt16) {xs ys : List Bool} (same : xs.length = ys.length) :
    residue (a ^^^ b) (List.zipWith xor xs ys) = residue a xs ^^^ residue b ys := by
  induction xs generalizing a b ys with
  | nil =>
    cases List.length_eq_zero_iff.mp same.symm
    rfl
  | cons x xs ih =>
    cases ys with
    | nil => cases same
    | cons y ys =>
      have bit : (xor x y).toUInt16 = x.toUInt16 ^^^ y.toUInt16 := by
        cases x <;> cases y <;> rfl
      have pushed : push (a ^^^ b) (xor x y) = push a x ^^^ push b y := by
        rw [push, push, push, bit, ← bitStep_xor]
        congr 1
        ac_rfl
      rw [List.zipWith_cons_cons]
      change residue (push (a ^^^ b) (xor x y)) _ = _
      rw [pushed, ih _ _ (Nat.succ.inj same)]
      rfl

/-! ## The register after bytes -/

theorem byteStep_eq (c : UInt16) (b : UInt8) : byteStep c b = residue c (transmitted [b]) := by
  have size : (transmitted [b]).length = 8 := length_transmitted [b]
  have value : UInt16.ofNat (number (transmitted [b])) = b.toUInt16 := by
    rw [number_transmitted_byte, ← UInt16.toNat_inj, UInt8.toNat_toUInt16]
    exact UInt16.toNat_ofNat_of_lt (b.toNat_lt.trans (by decide))
  rw [residue_eq (by omega), size, value]
  rfl

theorem foldl_byteStep (c : UInt16) (bytes : List UInt8) :
    bytes.foldl byteStep c = residue c (transmitted bytes) := by
  induction bytes generalizing c with
  | nil => rfl
  | cons b rest ih =>
    rw [List.foldl_cons, ih, byteStep_eq, ← residue_append, ← transmitted_append]
    rfl

theorem checksum_eq (bytes : List UInt8) : checksum bytes = residue initial (transmitted bytes) :=
  foldl_byteStep initial bytes

/-! ## Frames -/

/-- Two bytes are the checksum of a body if and only if the checksum of all is zero. -/
theorem checksum_append_eq_zero_iff (body : List UInt8) (low high : UInt8) :
    checksum (body ++ [low, high]) = 0 ↔ wordOf high low = checksum body := by
  have bits : transmitted [low, high] = transmitted [low] ++ transmitted [high] :=
    transmitted_append [low] [high]
  have size : (transmitted [low, high]).length = 16 := length_transmitted [low, high]
  have value : UInt16.ofNat (number (transmitted [low, high])) = wordOf high low := by
    rw [bits, number_append, number_transmitted_byte, number_transmitted_byte,
      length_transmitted, wordOf]
    congr 1
    simp only [List.length_singleton]
    omega
  rw [checksum_eq, transmitted_append, residue_append, ← checksum_eq, residue_eq (by omega), value,
    size, bitSteps_eq_zero_iff, UInt16.xor_eq_zero_iff, eq_comm]

/-- The bits that arrived flipped. -/
def flipped (sent received : List UInt8) : List Bool :=
  List.zipWith xor (transmitted sent) (transmitted received)

theorem length_flipped {sent received : List UInt8} (same : received.length = sent.length) :
    (flipped sent received).length = 8 * sent.length := by
  rw [flipped, List.length_zipWith, length_transmitted, length_transmitted, same, Nat.min_self]

theorem zipWith_xor_cancel {xs ys : List Bool} (same : xs.length = ys.length) :
    List.zipWith xor xs (List.zipWith xor xs ys) = ys := by
  induction xs generalizing ys with
  | nil =>
    cases List.length_eq_zero_iff.mp same.symm
    rfl
  | cons x xs ih =>
    cases ys with
    | nil => cases same
    | cons y ys =>
      rw [List.zipWith_cons_cons, List.zipWith_cons_cons, ih (Nat.succ.inj same),
        ← Bool.xor_assoc, Bool.xor_self, Bool.false_xor]

/-- What flipped bits do to the checksum of a frame. -/
theorem checksum_received {sent received : List UInt8} (same : received.length = sent.length) :
    checksum received = checksum sent ^^^ residue 0 (flipped sent received) := by
  have arrived : transmitted received =
      List.zipWith xor (transmitted sent) (flipped sent received) :=
    (zipWith_xor_cancel (by rw [length_transmitted, length_transmitted, same])).symm
  have size : (transmitted sent).length = (flipped sent received).length := by
    rw [length_transmitted, length_flipped same]
  rw [checksum_eq, checksum_eq, arrived, ← residue_xor initial 0 size, UInt16.xor_zero]

end Fieldbus.Crc
