import Mathlib.Data.List.Basic
import Fieldbus.Frame.Rtu
import Fieldbus.Proofs.Pdu.Lookup

/-!
# Frames on a serial line, decoded

Decoding accepts the frames of data units of at least two bytes, and nothing else
(`Rtu.decode_accepts`).  A data unit of one byte has a frame too, but that frame is shorter than
any response, and is refused.

Every frame of an allowed size is a slave address, at least two bytes of data and two bytes of
checksum (`exists_framed`), so decoding comes down to one comparison (`decode_framed`).
-/

namespace Fieldbus.Rtu

/-! ## Parts of a frame -/

/-- A frame from its parts. -/
def framed (slave : UInt8) (data : List UInt8) (low high : UInt8) : List UInt8 :=
  slave :: data ++ [low, high]

theorem length_framed (slave : UInt8) (data : List UInt8) (low high : UInt8) :
    (framed slave data low high).length = data.length + 3 := by
  simp [framed]

/-- A frame of at least three bytes has its parts. -/
theorem exists_framed {frame : List UInt8} (enough : 3 ≤ frame.length) :
    ∃ slave data low high, frame = framed slave data low high := by
  cases frame with
  | nil => simp at enough
  | cons slave rest =>
    obtain ⟨size, tail⟩ : ∃ size, rest.length = size + 2 :=
      ⟨rest.length - 2, by simp only [List.length_cons] at enough; omega⟩
    have two : (rest.drop size).length = 2 := by
      rw [List.length_drop]
      omega
    obtain ⟨low, high, ending⟩ := List.length_eq_two.mp two
    refine ⟨slave, rest.take size, low, high, ?_⟩
    rw [framed, ← ending, List.cons_append, List.take_append_drop]

theorem encode_eq_framed (slave : UInt8) (pdu : Pdu) :
    encode slave pdu =
      framed slave pdu.bytes (lowByte (Crc.checksum (slave :: pdu.bytes)))
        (highByte (Crc.checksum (slave :: pdu.bytes))) := rfl

/-- A frame is that of a data unit if its last bytes are the checksum. -/
theorem framed_eq_encode_iff {slave : UInt8} {data : List UInt8} {low high : UInt8}
    {other : UInt8} {pdu : Pdu} :
    framed slave data low high = encode other pdu ↔
      slave = other ∧ data = pdu.bytes ∧ wordOf high low = Crc.checksum (slave :: data) := by
  rw [encode_eq_framed]
  constructor
  · intro same
    obtain ⟨body, ending⟩ := List.append_inj' same rfl
    obtain ⟨rfl, rfl⟩ := List.cons.inj body
    obtain ⟨rfl, rfl⟩ : low = _ ∧ high = _ := by simpa using ending
    exact ⟨rfl, rfl, wordOf_bytes _⟩
  · rintro ⟨rfl, rfl, sum⟩
    rw [← sum, lowByte_wordOf, highByte_wordOf]

/-! ## Decoding -/

/-- A frame of an allowed size is decoded by its checksum. -/
theorem decode_framed (slave low high : UInt8) {data : List UInt8} (least : 2 ≤ data.length)
    (most : data.length ≤ maxPduSize) :
    decode (framed slave data low high) =
      if wordOf high low = Crc.checksum (slave :: data) then .ok (slave, ⟨data, most⟩)
      else .error (.checksum (Crc.checksum (slave :: data)) (wordOf high low)) := by
  have size := length_framed slave data low high
  have body : (framed slave data low high).take ((framed slave data low high).length - 2) =
      slave :: data := by
    rw [size]
    exact List.take_left' rfl
  have ending : (framed slave data low high).drop ((framed slave data low high).length - 2) =
      [low, high] := by
    rw [size]
    exact List.drop_left' rfl
  have made : Pdu.ofBytes data = .ok ⟨data, most⟩ :=
    Pdu.ofBytes_eq_ok_iff.mpr ⟨List.ne_nil_of_length_pos (by omega), rfl⟩
  unfold decode
  rw [if_neg (by rw [size, minFrameSize]; omega), if_neg (by rw [size, maxFrameSize]; omega)]
  simp only [body, ending, made]
  by_cases sum : wordOf high low = Crc.checksum (slave :: data)
  · simp [sum, Except.map]
  · simp [sum]

/-- Why a frame is refused. -/
inductive Refused (frame : List UInt8) : Fault → Prop where
  /-- It is below the least size. -/
  | short : frame.length < 5 → Refused frame (.frame (.short frame.length))
  /-- It is above the greatest size. -/
  | long : 256 < frame.length → Refused frame (.frame (.long frame.length))
  /-- Its last two bytes, low byte first, are not the checksum of those before. -/
  | checksum {body : List UInt8} {low high : UInt8} :
      frame = body ++ [low, high] →
      5 ≤ frame.length → frame.length ≤ 256 →
      wordOf high low ≠ Crc.checksum body →
      Refused frame (.checksum (Crc.checksum body) (wordOf high low))

/-- The sizes that a frame may have. -/
theorem size_cases (frame : List UInt8) :
    frame.length < 5 ∨ 256 < frame.length ∨
      ∃ slave data low high, frame = framed slave data low high ∧
        2 ≤ data.length ∧ data.length ≤ maxPduSize := by
  by_cases short : frame.length < 5
  · exact .inl short
  · by_cases long : 256 < frame.length
    · exact .inr (.inl long)
    · have enough : 3 ≤ frame.length := by omega
      obtain ⟨slave, data, low, high, rfl⟩ := exists_framed enough
      rw [length_framed] at short long
      exact .inr (.inr ⟨slave, data, low, high, rfl, by omega, by rw [maxPduSize]; omega⟩)

theorem decode_short {frame : List UInt8} (short : frame.length < 5) :
    decode frame = .error (.frame (.short frame.length)) := if_pos short

theorem decode_long {frame : List UInt8} (long : 256 < frame.length) :
    decode frame = .error (.frame (.long frame.length)) := by
  unfold decode
  rw [if_neg (by rw [minFrameSize]; omega)]
  exact if_pos long

theorem length_encode (slave : UInt8) (pdu : Pdu) :
    (encode slave pdu).length = pdu.size + 3 := length_framed ..

theorem decode_eq_ok_iff {frame : List UInt8} {slave : UInt8} {pdu : Pdu} :
    decode frame = .ok (slave, pdu) ↔
      frame = encode slave pdu ∧ 2 ≤ pdu.size ∧ pdu.size ≤ 253 := by
  obtain ⟨bytes, fits⟩ := pdu
  rcases size_cases frame with short | long | ⟨own, data, low, high, rfl, least, most⟩
  · rw [decode_short short]
    constructor
    · intro decoded
      cases decoded
    · rintro ⟨rfl, size, -⟩
      rw [length_encode] at short
      omega
  · rw [decode_long long]
    constructor
    · intro decoded
      cases decoded
    · rintro ⟨rfl, -, size⟩
      rw [length_encode] at long
      omega
  · rw [decode_framed own low high least most, framed_eq_encode_iff]
    constructor
    · intro decoded
      split at decoded
      next sum =>
        cases decoded
        exact ⟨⟨rfl, rfl, sum⟩, least, most⟩
      next => cases decoded
    · rintro ⟨⟨rfl, rfl, sum⟩, -, -⟩
      exact if_pos sum

/-- What a refused frame is refused for. -/
theorem refused_of_decode {frame : List UInt8} {fault : Fault}
    (refused : decode frame = .error fault) : Refused frame fault := by
  rcases size_cases frame with short | long | ⟨slave, data, low, high, rfl, least, most⟩
  · rw [decode_short short] at refused
    cases refused
    exact .short short
  · rw [decode_long long] at refused
    cases refused
    exact .long long
  · rw [decode_framed slave low high least most] at refused
    split at refused
    next => cases refused
    next other =>
      cases refused
      have size := length_framed slave data low high
      rw [maxPduSize] at most
      exact .checksum rfl (by omega) (by omega) other

/-! ## Decoding by places -/

/-- `decode` by places. -/
def decodeAt (frame : List UInt8) : Option (Except Fault (UInt8 × Pdu)) :=
  if frame.length < minFrameSize then some (.error (.frame (.short frame.length)))
  else if maxFrameSize < frame.length then some (.error (.frame (.long frame.length)))
  else do
    let size := frame.length - 2
    let low ← frame[size]?
    let high ← frame[size + 1]?
    let body ← slice? frame 0 size
    if wordOf high low ≠ Crc.checksum body then
      return .error (.checksum (Crc.checksum body) (wordOf high low))
    else
      let slave ← frame[0]?
      let data ← slice? frame 1 size
      return (Pdu.ofBytes data).map fun pdu => (slave, pdu)

/-- Decoding finds each byte that it looks up. -/
theorem decodeAt_eq (frame : List UInt8) : decodeAt frame = some (decode frame) := by
  rcases size_cases frame with short | long | ⟨slave, data, low, high, rfl, least, most⟩
  · rw [decode_short short]
    exact if_pos short
  · rw [decode_long long]
    unfold decodeAt
    rw [if_neg (by rw [minFrameSize]; omega)]
    exact if_pos long
  · have size := length_framed slave data low high
    have body : slice? (framed slave data low high) 0 (data.length + 1) = some (slave :: data) := by
      have := slice?_append [] (slave :: data) [low, high]
      simpa [framed] using this
    have inside : slice? (framed slave data low high) 1 (data.length + 1) = some data := by
      have := slice?_append [slave] data [low, high]
      simpa [framed, Nat.add_comm] using this
    have lowAt : (framed slave data low high)[data.length + 1]? = some low := by
      simp [framed]
    have highAt : (framed slave data low high)[data.length + 1 + 1]? = some high := by
      simp [framed]
    have made : Pdu.ofBytes data = .ok ⟨data, most⟩ :=
      Pdu.ofBytes_eq_ok_iff.mpr ⟨List.ne_nil_of_length_pos (by omega), rfl⟩
    rw [decode_framed slave low high least most]
    unfold decodeAt
    rw [if_neg (by rw [size, minFrameSize]; omega), if_neg (by rw [size, maxFrameSize]; omega)]
    have ending : data.length + 3 - 2 = data.length + 1 := by omega
    have first : (framed slave data low high)[0]? = some slave := rfl
    simp only [size, ending, lowAt, highAt, body, inside, first, made, Option.bind_eq_bind,
      Option.bind_some]
    by_cases sum : wordOf high low = Crc.checksum (slave :: data)
    · simp [sum, Except.map]
    · simp [sum]

/-- Decoding looks up no byte outside of a frame.  It accepts a frame as a data unit if and only if
it is the frame of that unit and the unit has between 2 and 253 bytes.  Any other frame is refused
for its size or for its checksum. -/
theorem decode_accepts (frame : List UInt8) :
    decodeAt frame = some (decode frame) ∧
      (∀ slave pdu, decode frame = .ok (slave, pdu) ↔
        frame = encode slave pdu ∧ 2 ≤ pdu.size ∧ pdu.size ≤ 253) ∧
      ((∃ slave pdu, frame = encode slave pdu ∧ 2 ≤ pdu.size ∧ pdu.size ≤ 253) ∨
        ∃ fault, decode frame = .error fault ∧ Refused frame fault) := by
  refine ⟨decodeAt_eq frame, fun slave pdu => decode_eq_ok_iff, ?_⟩
  cases decoded : decode frame with
  | ok accepted => exact .inl ⟨accepted.1, accepted.2, decode_eq_ok_iff.mp decoded⟩
  | error fault => exact .inr ⟨fault, rfl, refused_of_decode decoded⟩

/-- A data unit of one byte has a frame, but no response is that short. -/
example : decode (encode 1 ⟨[0x83], by decide⟩) = .error (.frame (.short 4)) := by decide +kernel

end Fieldbus.Rtu
