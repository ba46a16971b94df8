import Mathlib.Data.Nat.Bitwise
import Fieldbus.Pdu.Response

/-!
# Responses to reads

What a conforming device sends for the units of a table is read back as these
units (`parseRead_readResponse`).

*Registers.*  A word is its two bytes, so `wordsOf` undoes `wordBytes` word by
word.

*Bits.*  A byte is the number whose binary digits are its bits, least significant
first.  So reading the digits of a packed byte gives the bits back with zeros up
to eight, and the zeros after the last bit are cut by the quantity.
-/

namespace Fieldbus

/-! ## Registers -/

/-- Registers are read back from their bytes. -/
theorem wordsOf_flatMap_wordBytes (words : List UInt16) :
    wordsOf (words.flatMap wordBytes) = words := by
  induction words with
  | nil => rfl
  | cons w rest ih =>
    simp only [List.flatMap_cons, wordBytes, List.cons_append, List.nil_append, wordsOf,
      wordOf_bytes, ih]

/-! ## Bits -/

/-- A word that stands for a bit. -/
def IsBit (w : UInt16) : Prop := w = 0 ∨ w = 1

/-- The number whose binary digits are bits, least significant first. -/
def bitsValue (bits : List UInt16) : Nat :=
  bits.foldr (fun bit acc => 2 * acc + (if bit = 0 then 0 else 1)) 0

theorem bitsValue_lt (bits : List UInt16) : bitsValue bits < 2 ^ bits.length := by
  induction bits with
  | nil => decide
  | cons bit rest ih =>
    simp only [bitsValue, List.foldr_cons, List.length_cons, Nat.pow_succ] at ih ⊢
    split <;> omega

/-- The binary digits of bits are the bits. -/
theorem testBit_bitsValue (bits : List UInt16) (i : Nat) :
    (bitsValue bits).testBit i = decide (bits.getD i 0 ≠ 0) := by
  induction bits generalizing i with
  | nil => simp [bitsValue]
  | cons bit rest ih =>
    cases i with
    | zero =>
      simp only [bitsValue, List.foldr_cons, Nat.testBit_zero, List.getD_cons_zero]
      by_cases h : bit = 0
      · simp [h]
      · simp [h, Nat.add_mod]
    | succ i =>
      rw [List.getD_cons_succ, ← ih, Nat.testBit_succ]
      congr 1
      simp only [bitsValue, List.foldr_cons]
      split <;> omega

theorem toNat_byteOfBits {bits : List UInt16} (h : bits.length ≤ 8) :
    (byteOfBits bits).toNat = bitsValue bits := by
  have bound : bitsValue bits < 2 ^ 8 :=
    (bitsValue_lt bits).trans_le (Nat.pow_le_pow_right (by decide) h)
  exact UInt8.toNat_ofNat_of_lt bound

/-- The bits of a packed byte, filled up with zeros. -/
theorem byteBits_byteOfBits {bits : List UInt16} (size : bits.length ≤ 8)
    (areBits : ∀ b ∈ bits, IsBit b) :
    byteBits (byteOfBits bits) = bits ++ List.replicate (8 - bits.length) 0 := by
  apply List.ext_getElem
  · simp [byteBits]
    omega
  · intro i h₁ h₂
    simp only [byteBits, List.getElem_map, List.getElem_range, toNat_byteOfBits size,
      testBit_bitsValue]
    by_cases inside : i < bits.length
    · rw [List.getElem_append_left inside, List.getD_eq_getElem _ _ inside]
      rcases areBits _ (List.getElem_mem inside) with h | h
      · simp [h]
      · simp [h]
    · rw [List.getElem_append_right (by omega), List.getElem_replicate,
        List.getD_eq_default _ _ (by omega)]
      simp

/-- Packing takes eight bits at a time. -/
theorem packBits_eq {bits : List UInt16} (h : bits ≠ []) :
    packBits bits = byteOfBits (bits.take 8) :: packBits (bits.drop 8) := by
  match bits, h with
  | [_], _ | [_, _], _ | [_, _, _], _ | [_, _, _, _], _ | [_, _, _, _, _], _
  | [_, _, _, _, _, _], _ | [_, _, _, _, _, _, _], _ => rfl
  | _ :: _ :: _ :: _ :: _ :: _ :: _ :: _ :: _, _ => rfl

/-- Bits take one byte for every eight, the last one filled up. -/
theorem length_packBits (bits : List UInt16) : (packBits bits).length = (bits.length + 7) / 8 := by
  by_cases h : bits = []
  · simp [h, packBits]
  · have positive := List.length_pos_iff.mpr h
    rw [packBits_eq h, List.length_cons, length_packBits (bits.drop 8), List.length_drop]
    omega
termination_by bits.length
decreasing_by
  rw [List.length_drop]
  omega

/-- Packed bits are read back, with zeros after them. -/
theorem flatMap_byteBits_packBits (bits : List UInt16) (areBits : ∀ b ∈ bits, IsBit b) :
    ∃ k, (packBits bits).flatMap byteBits = bits ++ List.replicate k 0 := by
  by_cases h : bits = []
  · exact ⟨0, by simp [h, packBits]⟩
  · have positive := List.length_pos_iff.mpr h
    have first : ∀ b ∈ bits.take 8, IsBit b := fun b hb => areBits b (List.mem_of_mem_take hb)
    have others : ∀ b ∈ bits.drop 8, IsBit b := fun b hb => areBits b (List.mem_of_mem_drop hb)
    have size : (bits.take 8).length ≤ 8 := List.length_take_le 8 bits
    rw [packBits_eq h, List.flatMap_cons, byteBits_byteOfBits size first]
    by_cases last : bits.length ≤ 8
    · refine ⟨8 - bits.length, ?_⟩
      rw [List.take_of_length_le last, List.drop_of_length_le last]
      simp [packBits]
    · obtain ⟨k, ih⟩ := flatMap_byteBits_packBits (bits.drop 8) others
      refine ⟨k, ?_⟩
      have full : (bits.take 8).length = 8 := by
        rw [List.length_take]
        omega
      rw [ih, full, Nat.sub_self, List.replicate_zero, List.append_nil, ← List.append_assoc,
        List.take_append_drop]
termination_by bits.length
decreasing_by
  rw [List.length_drop]
  omega

/-- Bits are read back from their bytes. -/
theorem unpackBits_packBits {bits : List UInt16} (areBits : ∀ b ∈ bits, IsBit b) :
    unpackBits (packBits bits) bits.length = bits := by
  obtain ⟨k, h⟩ := flatMap_byteBits_packBits bits areBits
  rw [unpackBits, h, List.take_left]

/-! ## Whole responses -/

/-- The units of a table: any words of registers, and zeros and ones of bits. -/
def AreUnits (fc : UInt8) (words : List UInt16) : Prop :=
  FunctionCode.isBit fc = true → ∀ w ∈ words, IsBit w

theorem length_payload {fc : UInt8} {quantity : UInt16} {words : List UInt16}
    (size : words.length = quantity.toNat) :
    (payload fc words).length = Pdu.payloadSize fc quantity := by
  unfold payload Pdu.payloadSize
  split
  · rw [length_packBits, size]
  · rw [Pdu.length_flatMap_wordBytes, size, Nat.mul_comm]

/-- What one request may ask for fits into a response. -/
theorem payloadSize_le {fc : UInt8} {quantity : UInt16}
    (limit : quantity ≤ FunctionCode.readCeiling fc) : Pdu.payloadSize fc quantity ≤ 250 := by
  rw [UInt16.le_iff_toNat_le] at limit
  unfold FunctionCode.readCeiling at limit
  unfold Pdu.payloadSize
  split at limit
  next bit =>
    have ceiling : FunctionCode.maxReadCoils.toNat = 2000 := rfl
    rw [if_pos bit]
    omega
  next register =>
    have ceiling : FunctionCode.maxReadRegisters.toNat = 125 := rfl
    rw [if_neg register]
    omega

theorem length_readResponse_le {fc : UInt8} {quantity : UInt16} {words : List UInt16}
    (size : words.length = quantity.toNat) (limit : quantity ≤ FunctionCode.readCeiling fc) :
    (readResponse fc words).length ≤ maxPduSize := by
  have payload : (payload fc words).length = Pdu.payloadSize fc quantity := length_payload size
  have bound := payloadSize_le limit
  simp only [readResponse, List.length_cons, payload, maxPduSize]
  omega

/-- The functions that read the four tables. -/
theorem FunctionCode.eq_of_isRead {fc : UInt8} (h : isRead fc = true) :
    fc = 1 ∨ fc = 2 ∨ fc = 3 ∨ fc = 4 := by
  simp only [isRead, readCoils, readInputRegisters, Bool.and_eq_true, decide_eq_true_eq,
    UInt8.le_iff_toNat_le] at h
  obtain ⟨low, high⟩ := h
  simp only [← UInt8.toNat_inj]
  simp only [UInt8.toNat_ofNat] at *
  omega

/-- A function that reads a table is not marked as refused. -/
theorem FunctionCode.ne_refused_of_isRead {fc : UInt8} (h : isRead fc = true) :
    fc ≠ fc ||| exceptionBit := by
  rcases eq_of_isRead h with rfl | rfl | rfl | rfl <;> decide

namespace Pdu

/-- The units that a conforming device sends are read. -/
theorem parseRead_readResponse {p : Pdu} {fc : UInt8} {quantity : UInt16} {words : List UInt16}
    (read : FunctionCode.isRead fc = true) (limit : quantity ≤ FunctionCode.readCeiling fc)
    (size : words.length = quantity.toNat) (units : AreUnits fc words)
    (sent : p.bytes = readResponse fc words) : p.parseRead fc quantity = .ok words := by
  have length : (payload fc words).length = payloadSize fc quantity := length_payload size
  have bound := payloadSize_le limit
  have count : (UInt8.ofNat (payload fc words).length).toNat = payloadSize fc quantity := by
    rw [length]
    exact UInt8.toNat_ofNat_of_lt (by simp only [UInt8.size]; omega)
  have expected : p.expectFunction fc = .ok () := by
    unfold expectFunction
    rw [sent]
    simp [readResponse, FunctionCode.ne_refused_of_isRead read]
  unfold parseRead
  rw [expected, sent]
  simp only [bind, Except.bind, readResponse]
  rw [if_neg (by rw [count, length]; simp)]
  split
  next bit =>
    rw [payload, if_pos bit, ← size, unpackBits_packBits (units bit)]
  next register =>
    rw [payload, if_neg register, wordsOf_flatMap_wordBytes]

end Pdu

end Fieldbus
