import Fieldbus.Proofs.Link.Frames
import Fieldbus.Proofs.Pdu.Lookup

/-!
# Frames on a network, decoded

A received frame is judged in three places: its header is parsed, its size is compared with the
length field, and what is behind the header is taken as a data unit.  The length field counts the
unit id besides the data unit, so the three have to agree about one byte at both ends of the range.

They do.  A header is accepted with a length field from 2 to 254 only (`Header.parse_eq_ok_iff`),
and a frame is decoded if and only if the encoder could have made it (`decodes_iff`).
-/

namespace Fieldbus.Tcp

variable {frame : List UInt8} {h : Header} {pdu : Pdu}

/-! ## Headers -/

namespace Header

/-- The seven bytes of a header. -/
def bytes (h : Header) : List UInt8 :=
  wordBytes h.transaction ++ wordBytes h.protocol ++ wordBytes h.length ++ [h.unit]

/-- What an accepted header says. -/
structure Allowed (h : Header) : Prop where
  protocol : h.protocol = 0
  /-- There is a unit id and at least one byte behind it. -/
  least : 2 ≤ h.length.toNat
  /-- The data unit is not too large. -/
  most : h.length.toNat ≤ maxPduSize + 1

theorem allowed_iff : h.Allowed ↔
    ¬ h.protocol ≠ 0 ∧ ¬ (h.length < 2 ∨ maxPduSize + 1 < h.length.toNat) := by
  have two : (2 : UInt16).toNat = 2 := rfl
  rw [UInt16.lt_iff_toNat_lt, two]
  constructor
  · rintro ⟨protocol, least, most⟩
    exact ⟨not_not_intro protocol, by omega⟩
  · rintro ⟨protocol, length⟩
    exact ⟨Decidable.not_not.mp protocol, by omega, by omega⟩

/-- The header in bytes is read as itself, if it is allowed. -/
theorem parse_bytes (h : Header) : parse h.bytes = .ok h ↔ h.Allowed := by
  rw [allowed_iff]
  simp only [bytes, wordBytes, List.cons_append, List.nil_append, parse, wordOf_bytes]
  split
  next other => simp [other]
  next zero =>
    split
    next length => simp [length]
    next length => simp [zero, length]

/-- What is read as a header is a header in bytes. -/
theorem eq_bytes_of_parse {raw : List UInt8} (parsed : parse raw = .ok h) : raw = h.bytes := by
  unfold parse at parsed
  split at parsed
  next t t' p p' l l' unit =>
    simp only at parsed
    split at parsed
    next => cases parsed
    next =>
      split at parsed
      next => cases parsed
      next =>
        cases parsed
        simp [bytes, wordBytes]
  next => cases parsed

/-- Parsing accepts exactly the allowed headers. -/
theorem parse_eq_ok_iff {raw : List UInt8} : parse raw = .ok h ↔ raw = h.bytes ∧ h.Allowed := by
  constructor
  · intro parsed
    have same := eq_bytes_of_parse parsed
    exact ⟨same, h.parse_bytes.mp (same ▸ parsed)⟩
  · rintro ⟨rfl, allowed⟩
    exact h.parse_bytes.mpr allowed

/-- The size of the data unit, where the subtraction may fail. -/
def pduSize? (h : Header) : Option Nat :=
  if 1 ≤ h.length.toNat then some (h.length.toNat - 1) else none

theorem Allowed.pduSize? (allowed : h.Allowed) : h.pduSize? = some h.pduSize :=
  if_pos (Nat.le_of_succ_le allowed.least)

/-- An accepted header announces a size that a data unit can have. -/
theorem Allowed.pduSize_bounds (allowed : h.Allowed) : 1 ≤ h.pduSize ∧ h.pduSize ≤ maxPduSize := by
  have least := allowed.least
  have most := allowed.most
  rw [pduSize]
  omega

theorem Allowed.ofBytes (allowed : h.Allowed) {data : List UInt8}
    (size : data.length = h.pduSize) : ∃ pdu, Pdu.ofBytes data = .ok pdu ∧ pdu.bytes = data := by
  obtain ⟨least, most⟩ := allowed.pduSize_bounds
  have nonempty : data ≠ [] := List.ne_nil_of_length_pos (by omega)
  exact ⟨⟨data, by omega⟩, Pdu.ofBytes_eq_ok_iff.mpr ⟨nonempty, rfl⟩, rfl⟩

end Header

/-! ## Frames -/

/-- A frame is decoded: its header is accepted, it is as long as the header says, and behind the
header is a data unit. -/
structure Decodes (frame : List UInt8) (h : Header) (pdu : Pdu) : Prop where
  header : Header.parse (frame.take headerSize) = .ok h
  size : frame.length = headerSize + h.pduSize
  data : Pdu.ofBytes (frame.drop headerSize) = .ok pdu

/-- A frame is the header of its data unit and the data unit. -/
theorem encode_eq_append (transaction : UInt16) (unit : UInt8) (pdu : Pdu) :
    encode transaction unit pdu = (Header.of transaction unit pdu).bytes ++ pdu.bytes := by
  have zero : wordBytes 0 = [0, 0] := rfl
  rw [Header.bytes, List.append_assoc _ [_] pdu.bytes, encode, ← zero]
  rfl

/-- Decoding undoes encoding. -/
theorem decodes_encode (transaction : UInt16) (unit : UInt8) (nonempty : 0 < pdu.size) :
    Decodes (encode transaction unit pdu) (.of transaction unit pdu) pdu where
  header := by
    have parsed : Header.parse ((encode transaction unit pdu ++ []).take headerSize) =
        .ok (.of transaction unit pdu) := parse_encode nonempty []
    rwa [List.append_nil] at parsed
  size := by rw [length_encode, pduSize_of]
  data := by
    rw [drop_encode]
    exact Pdu.ofBytes_eq_ok_iff.mpr ⟨List.ne_nil_of_length_pos nonempty, rfl⟩

/-- A header of the right length is that of the data unit. -/
theorem Header.Allowed.eq_of (allowed : h.Allowed) (size : pdu.size = h.pduSize) :
    h = .of h.transaction h.unit pdu := by
  have least := allowed.least
  have length : h.length = UInt16.ofNat (pdu.size + 1) := by
    refine UInt16.toNat_inj.mp ?_
    rw [toNat_lengthField, size, Header.pduSize]
    omega
  obtain ⟨transaction, protocol, _, unit⟩ := h
  obtain rfl : protocol = 0 := allowed.protocol
  rw [Header.of, Header.mk.injEq]
  exact ⟨rfl, rfl, length, rfl⟩

/-- What is decoded was encoded. -/
theorem Decodes.eq_encode (decoded : Decodes frame h pdu) :
    frame = encode h.transaction h.unit pdu ∧ h = .of h.transaction h.unit pdu ∧ 0 < pdu.size := by
  obtain ⟨raw, allowed⟩ := Header.parse_eq_ok_iff.mp decoded.header
  obtain ⟨-, data⟩ := Pdu.ofBytes_eq_ok_iff.mp decoded.data
  have size : pdu.size = h.pduSize := by
    rw [Pdu.size, data, List.length_drop, decoded.size]
    omega
  have same := allowed.eq_of size
  refine ⟨?_, same, ?_⟩
  · calc frame
        = frame.take headerSize ++ frame.drop headerSize := (List.take_append_drop ..).symm
      _ = h.bytes ++ pdu.bytes := by rw [raw, data]
      _ = encode h.transaction h.unit pdu := by rw [encode_eq_append, ← same]
  · rw [size]
    exact allowed.pduSize_bounds.1

/-- A frame is decoded if and only if it is that of a data unit with at least one byte. -/
theorem decodes_iff : Decodes frame h pdu ↔
    ∃ transaction unit, frame = encode transaction unit pdu ∧ 1 ≤ pdu.size ∧ pdu.size ≤ 253 ∧
      h = .of transaction unit pdu := by
  constructor
  · intro decoded
    obtain ⟨whole, header, nonempty⟩ := decoded.eq_encode
    exact ⟨h.transaction, h.unit, whole, nonempty, pdu.fits, header⟩
  · rintro ⟨transaction, unit, rfl, nonempty, -, rfl⟩
    exact decodes_encode transaction unit nonempty

/-! ## The first frame of a buffer -/

/-- `frameSize?` with the header cut out by places and the size by a subtraction that may fail. -/
def frameSizeAt (buffer : List UInt8) : Option (Except Fault (Option Nat)) :=
  if buffer.length < headerSize then some (.ok none)
  else do
    let head ← slice? buffer 0 headerSize
    match Header.parse head with
    | .error fault => return .error fault
    | .ok header =>
      let size := headerSize + (← header.pduSize?)
      return .ok (if buffer.length < size then none else some size)

/-- Neither the cut nor the subtraction fails. -/
theorem frameSizeAt_eq (buffer : List UInt8) : frameSizeAt buffer = some (frameSize? buffer) := by
  unfold frameSizeAt frameSize?
  split
  next => rfl
  next long =>
    have head : slice? buffer 0 headerSize = some (buffer.take headerSize) :=
      if_pos ⟨Nat.zero_le _, Nat.not_lt.mp long⟩
    rw [head]
    cases parsed : Header.parse (buffer.take headerSize) with
    | error fault => simp [parsed, Except.map]
    | ok header =>
      have size := (Header.parse_eq_ok_iff.mp parsed).2.pduSize?
      simp [parsed, size, Except.map]

/-- The frame in a buffer is at most as large as the greatest data unit makes it. -/
theorem frameSize?_le {buffer : List UInt8} {size : Nat}
    (found : frameSize? buffer = .ok (some size)) : size ≤ headerSize + maxPduSize := by
  unfold frameSize? at found
  split at found
  next => cases found
  next =>
    cases parsed : Header.parse (buffer.take headerSize) with
    | error fault => simp [parsed, Except.map] at found
    | ok header =>
      simp only [parsed, Except.map, Except.ok.injEq] at found
      split at found
      next => cases found
      next =>
        cases found
        exact Nat.add_le_add_left (Header.parse_eq_ok_iff.mp parsed).2.pduSize_bounds.2 _

/-- A byte string is decoded if and only if it is the frame of a data unit of 1 to 253 bytes, and
it is decoded as that unit with its transaction and its unit id.  So decoding undoes encoding, and
what an accepted header announces is a data unit, whatever its bytes.  The size of the first frame
in a buffer is found without a byte that is not there and without a difference below zero, and is
260 at most. -/
theorem decode_accepts_encoded (frame : List UInt8) :
    (∀ h pdu, Decodes frame h pdu ↔
      ∃ transaction unit, frame = encode transaction unit pdu ∧ 1 ≤ pdu.size ∧ pdu.size ≤ 253 ∧
        h = .of transaction unit pdu) ∧
    (∀ transaction unit pdu, 1 ≤ pdu.size → pdu.size ≤ 253 →
      Decodes (encode transaction unit pdu) (.of transaction unit pdu) pdu) ∧
    (∀ h, Header.parse (frame.take headerSize) = .ok h →
      ∀ data, data.length = h.pduSize → ∃ pdu, Pdu.ofBytes data = .ok pdu ∧ pdu.bytes = data) ∧
    frameSizeAt frame = some (frameSize? frame) ∧
    ∀ size, frameSize? frame = .ok (some size) → size ≤ 260 := by
  refine ⟨fun _ _ => decodes_iff, ?_, ?_, frameSizeAt_eq frame, ?_⟩
  · intro transaction unit pdu nonempty _
    exact decodes_encode transaction unit nonempty
  · intro h parsed data size
    exact (Header.parse_eq_ok_iff.mp parsed).2.ofBytes size
  · intro size found
    exact frameSize?_le found

/-- The length field counts at least one byte of data. -/
example : Header.parse [0, 7, 0, 0, 0, 1, 3] = .error (.frame (.lengthField 1)) := rfl

/-- A data unit of the greatest size. -/
def greatestPdu : Pdu := ⟨List.replicate 253 0x2B, by rw [List.length_replicate]; decide⟩

theorem greatest_decode_accepts_encoded :
    Decodes (encode 7 3 greatestPdu) ⟨7, 0, 254, 3⟩ greatestPdu ∧
      Header.parse ((encode 7 3 greatestPdu).take headerSize) = .ok ⟨7, 0, 254, 3⟩ ∧
      (∃ pdu, Pdu.ofBytes greatestPdu.bytes = .ok pdu ∧ pdu.bytes = greatestPdu.bytes) ∧
      frameSize? (encode 7 3 greatestPdu) = .ok (some 260) ∧ 260 ≤ 260 := by
  obtain ⟨-, decodes, announced, -, bound⟩ := decode_accepts_encoded (encode 7 3 greatestPdu)
  have size : greatestPdu.size = 253 := List.length_replicate
  have header : Header.of 7 3 greatestPdu = ⟨7, 0, 254, 3⟩ := by decide +kernel
  have decoded : Decodes (encode 7 3 greatestPdu) ⟨7, 0, 254, 3⟩ greatestPdu :=
    header ▸ decodes 7 3 greatestPdu (by omega) (by omega)
  have found : frameSize? (encode 7 3 greatestPdu) = .ok (some 260) := by
    have whole : frameSize? (encode 7 3 greatestPdu ++ []) =
        .ok (some (headerSize + greatestPdu.size)) := frameSize?_encode (by omega) []
    rwa [List.append_nil, size] at whole
  exact ⟨decoded, decoded.header, announced _ decoded.header _ size, found, bound 260 found⟩

end Fieldbus.Tcp
