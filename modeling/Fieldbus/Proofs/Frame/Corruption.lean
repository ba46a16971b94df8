import Mathlib.Data.List.Count
import Fieldbus.Proofs.Frame.Checksum
import Fieldbus.Proofs.Frame.Serial

/-!
# Corrupted frames on a serial line

A frame whose bits arrive flipped is refused for its checksum, if the flipped bits belong to one of
the classes of `Crc.Detectable`: one or two bits anywhere, an odd number of bits anywhere, or bits
within sixteen consecutive ones (`Rtu.decode_corrupted`).  The flipped bits may lie in the address,
in the data and in the checksum.

The residue of the flipped bits is not zero, for a reason of its own in each class.

*Bursts.*  Sixteen bits fill the register, and no step loses anything.

*Odd numbers.*  The polynomial has a factor that counts bits: a step keeps the parity of the
register (`Crc.parity_bitStep`), so the register has the parity of the bits that it took.

*Two bits.*  The first one comes back as the second only after the order of the polynomial, which
is beyond the length of any frame (`Crc.bitSteps_one_ne_one`).
-/

namespace Fieldbus.Crc

/-! ## Classes of errors -/

/-- Which bits are flipped, in the order of transmission, by the errors that a checksum is meant
for. -/
inductive Detectable (bits : List Bool) : Prop where
  /-- One bit or two. -/
  | few : bits.count true = 1 ∨ bits.count true = 2 → Detectable bits
  /-- An odd number of bits. -/
  | odd : bits.count true % 2 = 1 → Detectable bits
  /-- Bits within sixteen consecutive ones. -/
  | burst (first : Nat) :
      true ∈ bits → (∀ k : Nat, bits[k]? = some true → first ≤ k ∧ k < first + 16) →
      Detectable bits

theorem eq_zeros {bits : List Bool} (none : true ∉ bits) :
    bits = List.replicate bits.length false := by
  apply List.eq_replicate_of_mem
  intro bit member
  cases bit with
  | false => rfl
  | true => exact absurd member none

/-- Up to the first flipped bit there are zeros. -/
theorem exists_first {bits : List Bool} {more : Nat} (flips : bits.count true = more + 1) :
    ∃ before rest, bits = List.replicate before false ++ true :: rest ∧
      rest.count true = more := by
  induction bits with
  | nil => cases flips
  | cons bit rest ih =>
    cases bit with
    | true => exact ⟨0, rest, rfl, by simpa using flips⟩
    | false =>
      obtain ⟨before, after, rfl, left⟩ := ih (by simpa using flips)
      exact ⟨before + 1, after, rfl, left⟩

/-! ## Bursts -/

theorem residue_zero_zeros (count : Nat) : residue 0 (List.replicate count false) = 0 := by
  rw [residue_zeros, bitSteps_eq_zero_iff]

/-- Zeros around bits hide nothing. -/
theorem residue_padded (before after : Nat) (bits : List Bool) :
    residue 0 (List.replicate before false ++ bits ++ List.replicate after false) = 0 ↔
      residue 0 bits = 0 := by
  rw [residue_append, residue_append, residue_zero_zeros, residue_zeros, bitSteps_eq_zero_iff]

theorem residue_window {bits : List Bool} (few : bits.length ≤ 16) (flips : true ∈ bits) :
    residue 0 bits ≠ 0 := by
  intro zero
  have small : number bits < UInt16.size :=
    (number_lt bits).trans_le (Nat.pow_le_pow_right (by decide) few)
  rw [residue_eq few, bitSteps_eq_zero_iff, UInt16.zero_xor] at zero
  have none : number bits = 0 :=
    (UInt16.toNat_ofNat_of_lt small).symm.trans (congrArg UInt16.toNat zero)
  exact (number_eq_zero_iff bits).mp none flips

theorem residue_burst {bits : List Bool} {first : Nat} (flips : true ∈ bits)
    (within : ∀ k : Nat, bits[k]? = some true → first ≤ k ∧ k < first + 16) :
    residue 0 bits ≠ 0 := by
  have before : true ∉ bits.take first := by
    intro member
    obtain ⟨k, hk⟩ := List.getElem?_of_mem member
    rw [List.getElem?_take] at hk
    split at hk
    next inside =>
      have := (within k hk).1
      omega
    next => cases hk
  have after : true ∉ (bits.drop first).drop 16 := by
    intro member
    obtain ⟨k, hk⟩ := List.getElem?_of_mem member
    rw [List.getElem?_drop, List.getElem?_drop] at hk
    have := (within _ hk).2
    omega
  have split : bits = bits.take first ++ (bits.drop first).take 16 ++
      (bits.drop first).drop 16 := by
    rw [List.append_assoc, List.take_append_drop, List.take_append_drop]
  have inside : true ∈ (bits.drop first).take 16 := by
    rw [split, List.mem_append, List.mem_append] at flips
    tauto
  rw [split, eq_zeros before, eq_zeros after]
  intro zero
  exact residue_window (List.length_take_le _ _) inside ((residue_padded _ _ _).mp zero)

/-! ## Parity -/

/-- Whether the number of set bits of the register is odd. -/
def parity (c : UInt16) : Bool := ((List.range 16).map c.toNat.testBit).foldr xor false

theorem foldr_xor_map {α : Type} (f g : α → Bool) (items : List α) :
    (items.map fun i => xor (f i) (g i)).foldr xor false =
      xor ((items.map f).foldr xor false) ((items.map g).foldr xor false) := by
  induction items with
  | nil => rfl
  | cons i rest ih =>
    simp only [List.map_cons, List.foldr_cons, ih, Bool.xor_assoc, Bool.xor_left_comm]

theorem parity_xor (a b : UInt16) : parity (a ^^^ b) = xor (parity a) (parity b) := by
  have bits : (a ^^^ b).toNat.testBit = fun i => xor (a.toNat.testBit i) (b.toNat.testBit i) := by
    funext i
    rw [UInt16.toNat_xor, Nat.testBit_xor]
  rw [parity, bits, foldr_xor_map]
  rfl

theorem parity_shift (c : UInt16) : parity (c >>> 1) = xor (parity c) (c.toNat.testBit 0) := by
  have shifted (i : Nat) : (c >>> 1).toNat.testBit i = c.toNat.testBit (i + 1) := by
    rw [UInt16.toNat_shiftRight, Nat.testBit_shiftRight]
    exact congrArg _ (Nat.add_comm 1 i)
  have top : c.toNat.testBit 16 = false := Nat.testBit_lt_two_pow c.toNat_lt
  have places : List.range 16 = [0, 1, 2, 3, 4, 5, 6, 7, 8, 9, 10, 11, 12, 13, 14, 15] := rfl
  simp only [parity, places, List.map_cons, List.map_nil, List.foldr_cons, List.foldr_nil, shifted,
    top]
  cases c.toNat.testBit 0 with
  | false => simp
  | true => simp

/-- A step keeps the parity: the bit that it shifts out comes back as three. -/
theorem parity_bitStep (c : UInt16) : parity (bitStep c) = parity c := by
  rw [bitStep_eq, parity_xor, parity_shift, feedback]
  have three : parity polynomial = true := rfl
  have none : parity 0 = false := rfl
  cases c.toNat.testBit 0 with
  | false => simp [none]
  | true => simp [three]

theorem parity_residue (c : UInt16) (bits : List Bool) :
    parity (residue c bits) = xor (parity c) (decide (bits.count true % 2 = 1)) := by
  induction bits generalizing c with
  | nil => simp [residue]
  | cons bit rest ih =>
    have pushed : parity (push c bit) = xor (parity c) bit := by
      have own : parity bit.toUInt16 = bit := by
        cases bit with
        | false => rfl
        | true => rfl
      rw [push, parity_bitStep, parity_xor, own]
    change parity (residue (push c bit) rest) = _
    rw [ih, pushed]
    cases bit with
    | false => simp
    | true =>
      rw [List.count_cons_self]
      rcases Nat.mod_two_eq_zero_or_one (rest.count true) with even | odd
      · simp [Nat.add_mod, even]
      · simp [Nat.add_mod, odd]

theorem residue_odd {bits : List Bool} (odd : bits.count true % 2 = 1) : residue 0 bits ≠ 0 := by
  intro zero
  have sum := parity_residue 0 bits
  rw [zero, odd] at sum
  exact absurd sum (by decide)

/-! ## Two bits -/

/-- Whether so many steps bring a register to one. -/
def meetsOne (c : UInt16) : (count : Nat) → Bool
  | 0 => false
  | count + 1 => c = 1 || meetsOne (bitStep c) count

theorem meetsOne_of_bitSteps {c : UInt16} {count k : Nat} (inside : k < count)
    (one : bitSteps c k = 1) : meetsOne c count = true := by
  induction count generalizing c k with
  | zero => omega
  | succ count ih =>
    rw [meetsOne, Bool.or_eq_true, decide_eq_true_iff]
    cases k with
    | zero => exact .inl one
    | succ k => exact .inr (ih (by omega) one)

/-- The order of the polynomial is beyond the bits of the longest frame. -/
theorem bitSteps_one_ne_one {k : Nat} (inside : k < 2048) : bitSteps 1 (k + 1) ≠ 1 := by
  intro one
  have never : meetsOne (bitStep 1) 2048 = false := by decide +kernel
  rw [meetsOne_of_bitSteps inside one] at never
  cases never

theorem residue_two {bits : List Bool} (two : bits.count true = 2) (short : bits.length ≤ 2048) :
    residue 0 bits ≠ 0 := by
  obtain ⟨before, rest, rfl, one⟩ := exists_first two
  obtain ⟨between, rest, rfl, none⟩ := exists_first one
  rw [eq_zeros (List.count_eq_zero.mp none)] at short ⊢
  simp only [List.length_append, List.length_cons, List.length_replicate] at short
  have first : residue 0 (List.replicate before false ++ true :: List.replicate between false) =
      bitSteps 1 (between + 1) := by
    rw [residue_append, residue_zero_zeros]
    exact residue_zeros (bitStep 1) between
  have whole : List.replicate before false ++ true :: (List.replicate between false ++
      true :: List.replicate rest.length false) =
      (List.replicate before false ++ true :: List.replicate between false) ++
        ([true] ++ List.replicate rest.length false) := by simp
  rw [whole, residue_append, first, residue_append, residue_zeros]
  intro zero
  have met : bitSteps 1 (between + 1) ^^^ 1 = 0 :=
    (bitStep_eq_zero_iff _).mp ((bitSteps_eq_zero_iff _ _).mp zero)
  exact bitSteps_one_ne_one (by omega) (UInt16.xor_eq_zero_iff.mp met)

/-- An error of one of the classes leaves a residue. -/
theorem Detectable.residue_ne_zero {bits : List Bool} (h : Detectable bits)
    (short : bits.length ≤ 2048) : residue 0 bits ≠ 0 := by
  cases h with
  | few count =>
    rcases count with one | two
    · exact residue_odd (by rw [one])
    · exact residue_two two short
  | odd count => exact residue_odd count
  | burst first flips within => exact residue_burst flips within

end Fieldbus.Crc

namespace Fieldbus.Rtu

/-! ## Corrupted frames -/

theorem checksum_encode (slave : UInt8) (pdu : Pdu) : Crc.checksum (encode slave pdu) = 0 :=
  (Crc.checksum_append_eq_zero_iff ..).mpr (wordOf_bytes _)

/-- A frame that arrives with flipped bits of a detectable class, wherever they lie, is refused for
its checksum. -/
theorem decode_corrupted {slave : UInt8} {pdu : Pdu} {received : List UInt8}
    (size : 2 ≤ pdu.size) (same : received.length = (encode slave pdu).length)
    (errors : Crc.Detectable (Crc.flipped (encode slave pdu) received)) :
    ∃ calculated arrived, calculated ≠ arrived ∧
      decode received = .error (.checksum calculated arrived) := by
  have fits : pdu.size ≤ 253 := pdu.fits
  have length := length_encode slave pdu
  have short : (Crc.flipped (encode slave pdu) received).length ≤ 2048 := by
    rw [Crc.length_flipped same]
    omega
  have changed : Crc.checksum received ≠ 0 := by
    rw [Crc.checksum_received same, checksum_encode, UInt16.zero_xor]
    exact errors.residue_ne_zero short
  rcases size_cases received with small | large | ⟨own, data, low, high, rfl, least, most⟩
  · omega
  · omega
  · have other : wordOf high low ≠ Crc.checksum (own :: data) := by
      intro sum
      exact changed ((Crc.checksum_append_eq_zero_iff ..).mpr sum)
    exact ⟨_, _, other.symm, (decode_framed own low high least most).trans (if_neg other)⟩

/-- A request for one register, with the lowest bit of its data and the highest bit of its checksum
flipped. -/
theorem request_decode_corrupted :
    2 ≤ (Pdu.ofWords 3 0 1).size ∧
      Crc.Detectable (Crc.flipped (encode 1 (Pdu.ofWords 3 0 1))
        [0x01, 0x03, 0x00, 0x00, 0x00, 0x00, 0x84, 0x8A]) ∧
      ∃ calculated arrived, calculated ≠ arrived ∧
        decode [0x01, 0x03, 0x00, 0x00, 0x00, 0x00, 0x84, 0x8A] =
          .error (.checksum calculated arrived) := by
  have size : 2 ≤ (Pdu.ofWords 3 0 1).size := by decide
  have same : ([0x01, 0x03, 0x00, 0x00, 0x00, 0x00, 0x84, 0x8A] : List UInt8).length =
      (encode 1 (Pdu.ofWords 3 0 1)).length := by
    rw [length_encode]
    rfl
  have errors : Crc.Detectable (Crc.flipped (encode 1 (Pdu.ofWords 3 0 1))
      [0x01, 0x03, 0x00, 0x00, 0x00, 0x00, 0x84, 0x8A]) := .few (.inr (by decide +kernel))
  exact ⟨size, errors, decode_corrupted size same errors⟩

end Fieldbus.Rtu
