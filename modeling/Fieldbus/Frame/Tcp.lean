import Fieldbus.Pdu.Basic

/-!
# Frames on a network

A frame on a network is a data unit behind a seven-byte header: the transaction
id that ties a response to its request, the protocol id, which is zero, the
number of bytes after the length field, and the unit id.

The length field counts the unit id and the data unit, so it lies between 2 and
254, and `Header.parse` accepts exactly those.
-/

namespace Fieldbus.Tcp

/-- The size of a header, the unit id included. -/
def headerSize : Nat := 7

/-- A decoded header. -/
structure Header where
  transaction : UInt16
  protocol : UInt16
  /-- The bytes after the length field. -/
  length : UInt16
  /-- The unit on a gateway. -/
  unit : UInt8
deriving DecidableEq, Repr

/-- The size of the data unit after the header. -/
def Header.pduSize (h : Header) : Nat := h.length.toNat - 1

/-- The header in seven bytes. -/
def Header.parse : List UInt8 → Except Fault Header
  | [t, t', p, p', l, l', unit] =>
    let header : Header := ⟨wordOf t t', wordOf p p', wordOf l l', unit⟩
    if header.protocol ≠ 0 then .error (.frame (.protocolId header.protocol))
    else if header.length < 2 ∨ maxPduSize + 1 < header.length.toNat then
      .error (.frame (.lengthField header.length))
    else .ok header
  | bytes => .error (.frame (.short bytes.length))

/-- The frame of a data unit. -/
def encode (transaction : UInt16) (unit : UInt8) (pdu : Pdu) : List UInt8 :=
  wordBytes transaction ++ [0, 0] ++ wordBytes (UInt16.ofNat (pdu.size + 1)) ++
    unit :: pdu.bytes

/-- A source of transaction ids, which wraps around. -/
structure TransactionIds where
  next : UInt16 := 1
deriving DecidableEq, Repr

/-- The next id and the source after it. -/
def TransactionIds.take (ids : TransactionIds) : UInt16 × TransactionIds :=
  (ids.next, ⟨ids.next + 1⟩)

def TransactionIds.takeMany (ids : TransactionIds) : (count : Nat) → List UInt16
  | 0 => []
  | count + 1 => ids.next :: TransactionIds.takeMany ⟨ids.next + 1⟩ count

end Fieldbus.Tcp
