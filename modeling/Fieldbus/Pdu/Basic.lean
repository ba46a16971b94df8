import Fieldbus.Fault

/-!
# Protocol data units

A protocol data unit is a function code and its data, at most 253 bytes.  The
bound is part of the type.

A response whose code has the top bit set is a refusal, and its second byte says
why.
-/

namespace Fieldbus

/-! ## Bytes of a word -/

def highByte (w : UInt16) : UInt8 := UInt8.ofNat (w.toNat / 256)

/-- The low byte of a word. -/
def lowByte (w : UInt16) : UInt8 := UInt8.ofNat (w.toNat % 256)

/-- The word with given bytes. -/
def wordOf (high low : UInt8) : UInt16 := UInt16.ofNat (high.toNat * 256 + low.toNat)

/-- A word as two bytes, most significant first. -/
def wordBytes (w : UInt16) : List UInt8 := [highByte w, lowByte w]

@[simp] theorem length_wordBytes (w : UInt16) : (wordBytes w).length = 2 := rfl

@[simp] theorem wordOf_bytes (w : UInt16) : wordOf (highByte w) (lowByte w) = w := by
  have bound := w.toNat_lt
  rw [← UInt16.toNat_inj]
  simp only [wordOf, highByte, lowByte, UInt8.toNat_ofNat', UInt16.toNat_ofNat']
  omega

@[simp] theorem highByte_wordOf (high low : UInt8) : highByte (wordOf high low) = high := by
  have first := high.toNat_lt
  have second := low.toNat_lt
  rw [← UInt8.toNat_inj]
  simp only [wordOf, highByte, UInt8.toNat_ofNat', UInt16.toNat_ofNat']
  omega

@[simp] theorem lowByte_wordOf (high low : UInt8) : lowByte (wordOf high low) = low := by
  have first := high.toNat_lt
  have second := low.toNat_lt
  rw [← UInt8.toNat_inj]
  simp only [wordOf, lowByte, UInt8.toNat_ofNat', UInt16.toNat_ofNat']
  omega

/-! ## The type -/

/-- A function code and its data. -/
structure Pdu where
  /-- The bytes, the function code first. -/
  bytes : List UInt8
  /-- A unit fits into a frame. -/
  fits : bytes.length ≤ maxPduSize
deriving DecidableEq

namespace Pdu

/-- The unit without bytes, to which bytes are appended. -/
def empty : Pdu := ⟨[], by decide⟩

def size (p : Pdu) : Nat := p.bytes.length

def isEmpty (p : Pdu) : Bool := p.bytes.isEmpty

/-- The unit taken from a received frame. -/
def ofBytes (bytes : List UInt8) : Except Fault Pdu :=
  if bytes.isEmpty then .error (.frame .emptyPdu)
  else if h : bytes.length ≤ maxPduSize then .ok ⟨bytes, h⟩
  else .error (.frame (.oversizedPdu bytes.length))

theorem ofBytes_eq_ok_iff {bytes : List UInt8} {p : Pdu} :
    ofBytes bytes = .ok p ↔ bytes ≠ [] ∧ p.bytes = bytes := by
  obtain ⟨own, fits⟩ := p
  unfold ofBytes
  cases bytes with
  | nil => simp
  | cons b rest =>
    rw [if_neg (by simp)]
    split
    next => simp [eq_comm]
    next large =>
      have other : own ≠ b :: rest := by
        rintro rfl
        exact large fits
      simp [other]

/-- The unit with bytes appended one at a time.  The first byte without room ends
the appending with a fault, and what went before it stays. -/
def append (p : Pdu) : List UInt8 → Pdu × Option Fault
  | [] => (p, none)
  | b :: rest =>
    if h : p.size < maxPduSize then
      append ⟨p.bytes ++ [b], by rw [List.length_append]; exact h⟩ rest
    else (p, some (.protocol .full))

/-! ## Reading -/

/-- The first byte. -/
def function? (p : Pdu) : Option UInt8 := p.bytes.head?

/-- Whether the unit is a refusal. -/
def isException (p : Pdu) : Bool :=
  match p.function? with
  | some fc => fc &&& FunctionCode.exceptionBit ≠ 0
  | none => false

/-- The reason of a refusal. -/
def exceptionCode? (p : Pdu) : Option UInt8 :=
  if p.isException then p.bytes[1]? else none

end Pdu

end Fieldbus
