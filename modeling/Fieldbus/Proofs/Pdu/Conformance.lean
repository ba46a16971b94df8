import Fieldbus.Proofs.Pdu.Lookup
import Fieldbus.Proofs.Pdu.ReadResponse

/-!
# Conforming responses to reads

The reader of responses accepts exactly what a conforming device may send.

`Conforming` says so of the bytes of a response: the function, then a count, then as many bytes as
the count says and the quantity takes, which have each unit at its place.  The bits of the last
byte that no unit uses may be anything.  `Pdu.parseRead_conforming` ties it to the reader: a
response is read as some words if and only if it conforms with them, any other response is a fault
of the whole, and a refusal is the fault that names its reason.  The responses that a device makes
(`readResponse`) are data units, and they are read as the words that they were made of.
-/

namespace Fieldbus

/-- The bytes that so many units take: eight bits to a byte, two bytes to a register. -/
def dataSize (fc : UInt8) (quantity : UInt16) : Nat :=
  if FunctionCode.isBit fc then (quantity.toNat + 7) / 8 else 2 * quantity.toNat

/-- The bytes of a response that carries the words to a read of so many units. -/
inductive Conforming (fc : UInt8) (quantity : UInt16) (words : List UInt16) : List UInt8 → Prop where
  /-- The count is that of the data, and the data have the words at their places. -/
  | mk {count : UInt8} {data : List UInt8} :
      count.toNat = data.length →
      data.length = dataSize fc quantity →
      words.length = quantity.toNat →
      (∀ i < quantity.toNat, unitAt? fc data i = words[i]?) →
      Conforming fc quantity words (fc :: count :: data)

/-- The sizes of a conforming response. -/
theorem Conforming.sizes {fc : UInt8} {quantity : UInt16} {words : List UInt16}
    {bytes : List UInt8} (h : Conforming fc quantity words bytes) :
    bytes.length = 2 + dataSize fc quantity ∧
      bytes[1]?.map UInt8.toNat = some (dataSize fc quantity) := by
  cases h with
  | mk count size _ _ =>
    rw [← size]
    constructor
    · simp only [List.length_cons]
      omega
    · exact congrArg some count

namespace Pdu

variable {p : Pdu} {fc : UInt8} {quantity : UInt16} {words : List UInt16}

theorem payloadSize_eq (fc : UInt8) (quantity : UInt16) :
    payloadSize fc quantity = dataSize fc quantity := by
  rw [payloadSize, Nat.mul_comm]
  rfl

/-- A payload of the right size is read unit by unit. -/
theorem units_eq_iff {data : List UInt8} (size : data.length = payloadSize fc quantity) :
    (if FunctionCode.isBit fc then unpackBits data quantity.toNat else wordsOf data) = words ↔
      words.length = quantity.toNat ∧ ∀ i < quantity.toNat, unitAt? fc data i = words[i]? := by
  rw [payloadSize_eq, dataSize] at size
  have length : (if FunctionCode.isBit fc then unpackBits data quantity.toNat
      else wordsOf data).length = quantity.toNat := by
    split
    next bit =>
      rw [if_pos bit] at size
      rw [unpackBits, List.length_take, length_flatMap_byteBits]
      omega
    next register =>
      rw [if_neg register] at size
      rw [length_wordsOf]
      omega
  have place : ∀ i < quantity.toNat, unitAt? fc data i =
      (if FunctionCode.isBit fc then unpackBits data quantity.toNat else wordsOf data)[i]? := by
    intro i inside
    unfold unitAt?
    split
    next => rw [unpackBits, List.getElem?_take_of_lt inside, getElem?_flatMap_byteBits]
    next => rw [getElem?_wordsOf]
  constructor
  · rintro rfl
    exact ⟨length, place⟩
  · rintro ⟨same, units⟩
    apply List.ext_getElem?
    intro i
    by_cases inside : i < quantity.toNat
    · rw [← place i inside, units i inside]
    · rw [List.getElem?_eq_none (by omega), List.getElem?_eq_none (by omega)]

/-- What a response to the function asked for begins with. -/
theorem expectFunction_eq_ok_iff :
    p.expectFunction fc = .ok () ↔
      p.bytes.head? = some fc ∧ fc ≠ fc ||| FunctionCode.exceptionBit := by
  obtain ⟨bytes, fits⟩ := p
  cases bytes with
  | nil => simp [expectFunction]
  | cons actual rest =>
    simp only [expectFunction, List.head?_cons, Option.some.injEq]
    by_cases same : actual = fc
    · subst same
      by_cases marked : actual = actual ||| FunctionCode.exceptionBit
      · rw [if_pos marked]
        cases rest with
        | nil => simp [← marked]
        | cons code rest => simp [← marked]
      · simp [marked]
    · split
      · cases rest with
        | nil => simp [same]
        | cons code rest => simp [same]
      · simp [same]

theorem parseRead_eq_ok_iff :
    p.parseRead fc quantity = .ok words ↔
      fc ≠ fc ||| FunctionCode.exceptionBit ∧ Conforming fc quantity words p.bytes := by
  constructor
  · intro parsed
    cases expected : p.expectFunction fc with
    | error fault =>
      rw [parseRead, expected] at parsed
      cases parsed
    | ok _ =>
      obtain ⟨head, unmarked⟩ := expectFunction_eq_ok_iff.mp expected
      refine ⟨unmarked, ?_⟩
      cases shape : p.bytes with
      | nil =>
        rw [shape] at head
        cases head
      | cons _ rest =>
        rw [shape] at head
        cases head
        cases rest with
        | nil =>
          rw [parseRead, expected, shape] at parsed
          cases parsed
        | cons count data =>
          rw [parseRead_of_expected expected shape] at parsed
          split at parsed
          next => cases parsed
          next conforming =>
            obtain ⟨announced, whole⟩ := not_or.mp conforming
            simp only [ne_eq, Decidable.not_not] at announced whole
            have size : data.length = payloadSize fc quantity := whole.trans announced
            obtain ⟨length, units⟩ := (units_eq_iff size).mp (Except.ok.inj parsed)
            exact .mk whole.symm (size.trans (payloadSize_eq fc quantity)) length units
  · rintro ⟨unmarked, conforming⟩
    cases shape : p.bytes with
    | nil =>
      rw [shape] at conforming
      cases conforming
    | cons _ _ =>
      rw [shape] at conforming
      cases conforming with
      | @mk count data whole size length units =>
        have expected : p.expectFunction fc = .ok () :=
          expectFunction_eq_ok_iff.mpr ⟨by rw [shape]; rfl, unmarked⟩
        rw [← payloadSize_eq] at size
        rw [parseRead_of_expected expected shape, if_neg (by omega)]
        exact congrArg _ ((units_eq_iff size).mpr ⟨length, units⟩)

/-- A refusal names the function without its mark. -/
theorem refusal_marked (fc code : UInt8) :
    Fault.refusal (fc ||| FunctionCode.exceptionBit) code = .exception (fc &&& 0x7F) code := by
  have mark : FunctionCode.exceptionBit.toBitVec &&& (0x7F : UInt8).toBitVec = 0 := rfl
  have function : (fc ||| FunctionCode.exceptionBit) &&& 0x7F = fc &&& 0x7F := by
    rw [← UInt8.toBitVec_inj, UInt8.toBitVec_and, UInt8.toBitVec_or, BitVec.and_or_distrib_right,
      mark]
    exact BitVec.or_zero
  rw [Fault.refusal, function]

theorem parseRead_refused {code : UInt8} {rest : List UInt8}
    (refused : p.bytes = (fc ||| FunctionCode.exceptionBit) :: code :: rest)
    (quantity : UInt16) : p.parseRead fc quantity = .error (.exception (fc &&& 0x7F) code) := by
  have expected : p.expectFunction fc = .error (.exception (fc &&& 0x7F) code) := by
    rw [expectFunction, refused, ← refusal_marked]
    exact if_pos rfl
  rw [parseRead, expected]
  rfl

/-- Reading finds each byte that it looks up, whatever the response is.  It accepts a response as
words if and only if the response conforms with them and its function is not marked as refused.
A wrong count, a byte too few or too many is a fault, and a refusal is the one that it names.  What
a device makes of the units of a table is a data unit that is read as these units. -/
theorem parseRead_conforming (p : Pdu) (fc : UInt8) (quantity : UInt16) :
    p.parseReadAt fc quantity = some (p.parseRead fc quantity) ∧
      (∀ words, p.parseRead fc quantity = .ok words ↔
        fc ≠ fc ||| FunctionCode.exceptionBit ∧ Conforming fc quantity words p.bytes) ∧
      (p.size ≠ 2 + dataSize fc quantity ∨
          p.bytes[1]?.map UInt8.toNat ≠ some (dataSize fc quantity) →
        ∃ fault, p.parseRead fc quantity = .error fault) ∧
      (∀ code rest, p.bytes = (fc ||| FunctionCode.exceptionBit) :: code :: rest →
        p.parseRead fc quantity = .error (.exception (fc &&& 0x7F) code)) ∧
      (FunctionCode.isRead fc = true → quantity ≤ FunctionCode.readCeiling fc →
        ∀ words, words.length = quantity.toNat → AreUnits fc words →
          (readResponse fc words).length ≤ maxPduSize ∧
            ∃ response, ofBytes (readResponse fc words) = .ok response ∧
              response.parseRead fc quantity = .ok words) := by
  refine ⟨parseReadAt_eq p fc quantity, fun _ => parseRead_eq_ok_iff, ?_, ?_, ?_⟩
  · intro wrong
    cases parsed : p.parseRead fc quantity with
    | error fault => exact ⟨fault, rfl⟩
    | ok words =>
      obtain ⟨size, count⟩ := (parseRead_eq_ok_iff.mp parsed).2.sizes
      exact absurd wrong (not_or.mpr ⟨not_not.mpr size, not_not.mpr count⟩)
  · intro code rest refused
    exact parseRead_refused refused quantity
  · intro read limit words size units
    have fits := length_readResponse_le size limit
    refine ⟨fits, ⟨_, fits⟩, ofBytes_eq_ok_iff.mpr ⟨List.cons_ne_nil _ _, rfl⟩, ?_⟩
    exact parseRead_readResponse read limit size units rfl

/-- Ten coils, read back from the two bytes that carry them. -/
theorem ten_coils_conforming :
    ([1, 0, 1, 1, 0, 0, 1, 1, 1, 0] : List UInt16).length = (10 : UInt16).toNat ∧
      ∃ response, ofBytes [0x01, 0x02, 0xCD, 0x01] = .ok response ∧
        response.parseRead 0x01 10 = .ok [1, 0, 1, 1, 0, 0, 1, 1, 1, 0] := by
  have units : AreUnits 0x01 [1, 0, 1, 1, 0, 0, 1, 1, 1, 0] := by simp [AreUnits, IsBit]
  obtain ⟨-, -, -, -, device⟩ := parseRead_conforming empty 0x01 10
  obtain ⟨-, response, made, parsed⟩ := device rfl (by decide) _ rfl units
  have bytes : readResponse 0x01 [1, 0, 1, 1, 0, 0, 1, 1, 1, 0] = [0x01, 0x02, 0xCD, 0x01] := by
    decide
  exact ⟨rfl, response, bytes ▸ made, parsed⟩

end Pdu

end Fieldbus
