import Fieldbus.Link.Rtu
import Fieldbus.Proofs.Frame.Serial
import Fieldbus.Proofs.Link.Reception
import Fieldbus.Proofs.Pdu.ReadResponse

/-!
# Waiting for a response on a serial line

A frame on a serial line has no length field, so its size is told from its first three bytes before
anything is verified.  For each data unit that a slave responds with (`Rtu.IsResponse`) that size
is the size of its frame (`Rtu.responseSize_encode`).  So the response is read whatever the chunks
are in which it comes, and what comes behind it stays on the wire.

Nothing is known of the bytes that really come.  `RtuLink.receive_consumes` says of any of them how
many are read, and that a data unit is given only for the frame of the slave that was asked.
`RtuLink.receiveAt` is the waiting with each byte looked up by its place.
-/

namespace Fieldbus

/-! ## Taking bytes -/

namespace Wire

/-- What is taken and what is left make up the wire. -/
theorem bytes_takeUntil (deadline : Nanos) : (now : Nanos) → (count : Nat) → (wire : Wire) →
    (takeUntil deadline now count wire).bytes ++ (takeUntil deadline now count wire).rest.bytes =
      wire.bytes
  | _, 0, wire => by cases wire <;> rfl
  | _, _ + 1, [] => rfl
  | now, count + 1, (time, arrival) :: rest => by
    unfold takeUntil
    split
    · rfl
    · cases arrival with
      | closed => rfl
      | failed => rfl
      | bytes chunk =>
        simp only
        split
        · simp [← List.append_assoc, List.take_append_drop]
        · have later := bytes_takeUntil deadline (max now time) (count + 1 - chunk.length) rest
          rw [bytes_chunk, List.append_assoc, later]

/-- Bytes that come in time are taken, and the others stay in time. -/
theorem takeUntil_inTime (deadline : Nanos) : (now : Nanos) → (count : Nat) → (wire : Wire) →
    count ≤ (wire.inTime deadline).length →
      (takeUntil deadline now count wire).ending = .enough ∧
        (takeUntil deadline now count wire).bytes = (wire.inTime deadline).take count ∧
        (takeUntil deadline now count wire).rest.inTime deadline =
          (wire.inTime deadline).drop count
  | _, 0, wire, _ => by cases wire <;> simp [takeUntil]
  | _, _ + 1, [], enough => by simp [inTime] at enough
  | now, count + 1, (time, arrival) :: rest, enough => by
    cases arrival with
    | closed => simp [inTime] at enough
    | failed => simp [inTime] at enough
    | bytes chunk =>
      unfold inTime at enough
      split at enough
      next => simp at enough
      next soon =>
        have whole : inTime deadline ((time, .bytes chunk) :: rest) =
            chunk ++ inTime deadline rest := if_neg soon
        unfold takeUntil
        rw [if_neg soon, whole]
        simp only
        split
        next longer =>
          have left : inTime deadline ((time, .bytes (chunk.drop (count + 1))) :: rest) =
              chunk.drop (count + 1) ++ inTime deadline rest := if_neg soon
          refine ⟨rfl, ?_, ?_⟩
          · rw [List.take_append_of_le_length (Nat.le_of_lt longer)]
          · rw [left, List.drop_append_of_le_length (Nat.le_of_lt longer)]
        next within =>
          have fewer : chunk.length ≤ count + 1 := Nat.le_of_not_lt within
          have further : count + 1 - chunk.length ≤ (inTime deadline rest).length := by
            rw [List.length_append] at enough
            omega
          obtain ⟨ending, bytes, left⟩ :=
            takeUntil_inTime deadline (max now time) (count + 1 - chunk.length) rest further
          refine ⟨ending, ?_, ?_⟩
          · rw [bytes, List.take_append, List.take_of_length_le fewer]
          · rw [left, List.drop_append, List.drop_of_length_le fewer, List.nil_append]

end Wire

/-! ## Sizes of responses -/

namespace Rtu

/-- The data units that slaves respond with. -/
inductive IsResponse (pdu : Pdu) : Prop where
  /-- Data that were read: the function, a count, and as many bytes.  A data unit has room for 251
  of them. -/
  | data {fc count : UInt8} {data : List UInt8} :
    FunctionCode.isRead fc = true → data.length = count.toNat → pdu.bytes = fc :: count :: data →
    IsResponse pdu
  /-- The confirmation of a write: the function and four bytes of the request. -/
  | confirmation {fc : UInt8} {echo : List UInt8} :
    fc = FunctionCode.writeSingleCoil ∨ fc = FunctionCode.writeSingleRegister ∨
      fc = FunctionCode.writeMultipleRegisters →
    echo.length = 4 → pdu.bytes = fc :: echo →
    IsResponse pdu
  /-- A refusal: a marked function and the reason. -/
  | refusal {fc code : UInt8} :
    fc &&& FunctionCode.exceptionBit ≠ 0 → pdu.bytes = [fc, code] →
    IsResponse pdu

/-- A response has at least two bytes, and these tell how many follow. -/
theorem IsResponse.shape {pdu : Pdu} (h : IsResponse pdu) :
    ∃ fc second rest, pdu.bytes = fc :: second :: rest ∧
      responseSize fc second = .ok (rest.length + 5) := by
  cases h with
  | @data fc count data read size shape =>
    refine ⟨fc, count, data, shape, ?_⟩
    have unmarked : ¬ fc &&& FunctionCode.exceptionBit ≠ 0 := by
      rcases FunctionCode.eq_of_isRead read with rfl | rfl | rfl | rfl <;> decide
    rw [responseSize, if_neg unmarked, if_pos read, size, Nat.add_comm 3]
  | @confirmation fc echo write four shape =>
    match echo, four with
    | [a, b, c, d], _ =>
      refine ⟨fc, a, [b, c, d], shape, ?_⟩
      rcases write with rfl | rfl | rfl <;> rfl
  | @refusal fc code marked shape => exact ⟨fc, code, [], shape, if_pos marked⟩

theorem IsResponse.two_le_size {pdu : Pdu} (h : IsResponse pdu) : 2 ≤ pdu.size := by
  obtain ⟨fc, second, rest, shape, -⟩ := h.shape
  rw [Pdu.size, shape, List.length_cons, List.length_cons]
  omega

/-- No response is shorter than its first three bytes. -/
theorem three_le_responseSize {fc third : UInt8} {size : Nat}
    (told : responseSize fc third = .ok size) : 3 ≤ size := by
  unfold responseSize minFrameSize at told
  split at told
  next => cases told; decide
  split at told
  next => cases told; omega
  split at told
  next => cases told; decide
  next => cases told

/-- The second and third byte of the frame of a response tell its size. -/
theorem responseSize_encode {pdu : Pdu} (h : IsResponse pdu) (slave : UInt8) :
    responseSize ((encode slave pdu).getD 1 0) ((encode slave pdu).getD 2 0) =
      .ok (encode slave pdu).length := by
  obtain ⟨fc, second, rest, shape, told⟩ := h.shape
  have size : (encode slave pdu).length = rest.length + 5 := by
    rw [length_encode, Pdu.size, shape]
    rfl
  rw [size, ← told, encode_eq_framed, shape]
  rfl

end Rtu

/-! ## Responses -/

namespace RtuLink

variable {slave : UInt8} {late : Fault} {deadline now : Nanos} {wire : Wire} {pdu : Pdu}

theorem announcedSize_encode (h : Rtu.IsResponse pdu) (slave : UInt8) :
    announcedSize ((Rtu.encode slave pdu).take 3) = .ok (Rtu.encode slave pdu).length := by
  have fits : ¬ Rtu.maxFrameSize < (Rtu.encode slave pdu).length := by
    have := pdu.fits
    rw [Rtu.length_encode, Rtu.maxFrameSize, Pdu.size]
    omega
  have told := Rtu.responseSize_encode h slave
  rw [announcedSize, List.getD_eq_getElem?_getD, List.getD_eq_getElem?_getD,
    List.getElem?_take_of_lt (by decide), List.getElem?_take_of_lt (by decide),
    ← List.getD_eq_getElem?_getD, ← List.getD_eq_getElem?_getD, told]
  exact if_neg fits

/-- What waiting for a response makes of a frame. -/
theorem accept_eq_ok_iff {frame : List UInt8} :
    accept slave frame = .ok pdu ↔ Rtu.decode frame = .ok (slave, pdu) := by
  unfold accept
  cases decoded : Rtu.decode frame with
  | error fault => simp [bind, Except.bind]
  | ok parts =>
    obtain ⟨address, data⟩ := parts
    by_cases own : address = slave
    · simp [bind, Except.bind, pure, Except.pure, own]
    · simp [bind, Except.bind, throw, throwThe, MonadExceptOf.throw, own]

/-- The frame of a response that comes in time is read, and nothing behind it. -/
theorem receive_frame (h : Rtu.IsResponse pdu)
    (came : Rtu.encode slave pdu <+: wire.inTime deadline) :
    (receive slave late deadline now wire).result = .ok pdu ∧
      (receive slave late deadline now wire).response = Rtu.encode slave pdu ∧
      wire.bytes = Rtu.encode slave pdu ++ (receive slave late deadline now wire).wire.bytes := by
  obtain ⟨behind, came⟩ := came
  have least := h.two_le_size
  have accepted : accept slave (Rtu.encode slave pdu) = .ok pdu :=
    accept_eq_ok_iff.mpr (Rtu.decode_eq_ok_iff.mpr ⟨rfl, least, pdu.fits⟩)
  have size := announcedSize_encode h slave
  have long : 3 ≤ (Rtu.encode slave pdu).length := by
    rw [Rtu.length_encode]
    omega
  generalize Rtu.encode slave pdu = frame at came accepted size long ⊢
  -- The first three bytes.
  have enough : 3 ≤ (wire.inTime deadline).length := by
    rw [← came, List.length_append]
    omega
  obtain ⟨headEnds, headBytes, headLeft⟩ := Wire.takeUntil_inTime deadline now 3 wire enough
  have headWhole := Wire.bytes_takeUntil deadline now 3 wire
  rw [← came, List.take_append_of_le_length long] at headBytes
  rw [← came, List.drop_append_of_le_length long] at headLeft
  -- The others.
  unfold receive
  generalize Wire.takeUntil deadline now 3 wire = head at headEnds headBytes headLeft headWhole ⊢
  have others : frame.length - 3 ≤ (head.rest.inTime deadline).length := by
    rw [headLeft, List.length_append, List.length_drop]
    omega
  obtain ⟨bodyEnds, bodyBytes, -⟩ :=
    Wire.takeUntil_inTime deadline head.now (frame.length - 3) head.rest others
  have bodyWhole := Wire.bytes_takeUntil deadline head.now (frame.length - 3) head.rest
  rw [headLeft, ← List.length_drop, List.take_left] at bodyBytes
  rw [List.length_drop] at bodyBytes
  simp only [headEnds, headBytes, size]
  generalize Wire.takeUntil deadline head.now (frame.length - 3) head.rest = body
    at bodyEnds bodyBytes bodyWhole ⊢
  rw [headBytes, ← bodyWhole, bodyBytes, ← List.append_assoc, List.take_append_drop] at headWhole
  simp only [bodyEnds, bodyBytes, List.take_append_drop, Nat.sub_self, List.replicate_zero,
    List.append_nil]
  exact ⟨accepted, trivial, headWhole.symm⟩

/-- A frame is announced with a size that frames have. -/
theorem announcedSize_bounds {head : List UInt8} {size : Nat}
    (announced : announcedSize head = .ok size) : 3 ≤ size ∧ size ≤ 256 := by
  unfold announcedSize at announced
  cases told : Rtu.responseSize (head.getD 1 0) (head.getD 2 0) with
  | error fault =>
    rw [told] at announced
    cases announced
  | ok size' =>
    rw [told] at announced
    simp only [bind, Except.bind] at announced
    split at announced
    next => cases announced
    next small =>
      cases announced
      exact ⟨Rtu.three_le_responseSize told, Nat.le_of_not_lt small⟩

/-- Whatever comes, at most 256 bytes are read, and a data unit is given only for the frame of the
slave that was asked. -/
theorem receive_consumes (slave : UInt8) (late : Fault) (deadline now : Nanos) (wire : Wire) :
    ∃ consumed, wire.bytes = consumed ++ (receive slave late deadline now wire).wire.bytes ∧
      consumed.length ≤ 256 ∧
      ∀ pdu, (receive slave late deadline now wire).result = .ok pdu →
        Rtu.decode consumed = .ok (slave, pdu) := by
  unfold receive
  have headWhole := Wire.bytes_takeUntil deadline now 3 wire
  have headSize := Wire.length_takeUntil_le deadline now 3 wire
  generalize Wire.takeUntil deadline now 3 wire = head at headWhole headSize ⊢
  have few : head.bytes.length ≤ 256 := by omega
  dsimp only
  split
  next => exact ⟨head.bytes, headWhole.symm, few, fun _ h => by cases h⟩
  next => exact ⟨head.bytes, headWhole.symm, few, fun _ h => by cases h⟩
  split
  next => exact ⟨head.bytes, headWhole.symm, few, fun _ h => by cases h⟩
  next size announced =>
    obtain ⟨least, most⟩ := announcedSize_bounds announced
    have bodyWhole := Wire.bytes_takeUntil deadline head.now (size - 3) head.rest
    have bodySize := Wire.length_takeUntil_le deadline head.now (size - 3) head.rest
    generalize Wire.takeUntil deadline head.now (size - 3) head.rest = body
      at bodyWhole bodySize ⊢
    have whole : wire.bytes = head.bytes ++ body.bytes ++ body.rest.bytes := by
      rw [List.append_assoc, bodyWhole, headWhole]
    have few : (head.bytes ++ body.bytes).length ≤ 256 := by
      rw [List.length_append]
      omega
    split
    next => exact ⟨_, whole, few, fun _ h => by cases h⟩
    next => exact ⟨_, whole, few, fun _ h => by cases h⟩
    next => exact ⟨_, whole, few, fun pdu accepted => accept_eq_ok_iff.mp accepted⟩

/-! ## Waiting by places -/

/-- `announcedSize` by places. -/
def announcedSizeAt (head : List UInt8) : Option (Except Fault Nat) := do
  let fc ← head[1]?
  let third ← head[2]?
  return do
    let size ← Rtu.responseSize fc third
    if Rtu.maxFrameSize < size then throw (.frame (.announced size))
    return size

/-- `accept` by places. -/
def acceptAt (slave : UInt8) (frame : List UInt8) : Option (Except Fault Pdu) := do
  let decoded ← Rtu.decodeAt frame
  return do
    let (address, pdu) ← decoded
    if address ≠ slave then throw (.protocol (.otherSlave slave address))
    return pdu

/-- `receive` by places.  The bytes behind the third go into the piece of the frame that begins
there. -/
def receiveAt (slave : UInt8) (late : Fault) (deadline now : Nanos) (wire : Wire) :
    Option Received :=
  let head := Wire.takeUntil deadline now 3 wire
  match head.ending with
  | .late => some ⟨.error late, [], head.rest, head.now⟩
  | .broken fault => some ⟨.error fault, [], head.rest, head.now⟩
  | .enough => do
    match ← announcedSizeAt head.bytes with
    | .error fault => return ⟨.error fault, [], head.rest, head.now⟩
    | .ok size =>
      let blank ← slice? (head.bytes ++ List.replicate (size - head.bytes.length) 0) 3 size
      let body := Wire.takeUntil deadline head.now blank.length head.rest
      let response := head.bytes ++ body.bytes ++ blank.drop body.bytes.length
      match body.ending with
      | .late => return ⟨.error late, response, body.rest, body.now⟩
      | .broken fault => return ⟨.error fault, response, body.rest, body.now⟩
      | .enough =>
        let result ← acceptAt slave response
        return ⟨result, response, body.rest, body.now⟩

theorem announcedSizeAt_eq {head : List UInt8} (three : head.length = 3) :
    announcedSizeAt head = some (announcedSize head) := by
  match head, three with
  | [_, _, _], _ => rfl

theorem acceptAt_eq (slave : UInt8) (frame : List UInt8) :
    acceptAt slave frame = some (accept slave frame) := by
  unfold acceptAt
  rw [Rtu.decodeAt_eq]
  rfl

/-- The zeros behind the first three bytes are there. -/
theorem slice?_blank {head : List UInt8} (three : head.length = 3) {size : Nat} (least : 3 ≤ size) :
    slice? (head ++ List.replicate (size - head.length) 0) 3 size =
      some (List.replicate (size - 3) 0) := by
  have piece := slice?_append head (List.replicate (size - 3) 0) []
  rw [List.append_nil, List.length_replicate, three, Nat.add_sub_cancel' least] at piece
  rw [three, piece]

/-- Waiting finds each byte that it looks up, and each piece. -/
theorem receiveAt_eq (slave : UInt8) (late : Fault) (deadline now : Nanos) (wire : Wire) :
    receiveAt slave late deadline now wire = some (receive slave late deadline now wire) := by
  unfold receiveAt receive
  have three := Wire.length_takeUntil deadline now 3 wire
  generalize Wire.takeUntil deadline now 3 wire = head at three ⊢
  obtain ⟨head, rest, now, ending⟩ := head
  cases ending with
  | late => rfl
  | broken fault => rfl
  | enough =>
    have three : head.length = 3 := three rfl
    dsimp only
    rw [announcedSizeAt_eq three, Option.bind_eq_bind, Option.bind_some]
    cases announced : announcedSize head with
    | error fault => rfl
    | ok size =>
      obtain ⟨least, -⟩ := announcedSize_bounds announced
      dsimp only
      rw [slice?_blank three least, Option.bind_eq_bind, Option.bind_some, List.length_replicate]
      have whole := Wire.length_takeUntil deadline now (size - 3) rest
      generalize Wire.takeUntil deadline now (size - 3) rest = body at whole ⊢
      obtain ⟨body, rest, now, ending⟩ := body
      have zeros : (List.replicate (size - 3) (0 : UInt8)).drop body.length =
          List.replicate (size - (head ++ body).length) 0 := by
        rw [List.drop_replicate, List.length_append, three, Nat.sub_sub]
      cases ending with
      | late => rw [zeros]; rfl
      | broken fault => rw [zeros]; rfl
      | enough =>
        have whole : body.length = size - 3 := whole rfl
        have complete : head ++ body ++ (List.replicate (size - 3) 0).drop body.length =
            head ++ body := by
          rw [whole, List.drop_of_length_le (by simp), List.append_nil]
        have nothing : size - (head ++ body).length = 0 := by
          rw [List.length_append]
          omega
        dsimp only
        rw [complete, acceptAt_eq, nothing, List.replicate_zero, List.append_nil]
        rfl

/-- `transact` by places. -/
def transactAt (l : RtuLink) (slave : UInt8) (c : Conduct) (now : Nanos) : Option Received :=
  let deadline := now + l.timeout
  let late : Fault :=
    .timeout (wholeMillis l.timeout) s!"slave {slave} on {l.settings.device}"
  match c.sending with
  | .whole => receiveAt slave late deadline now c.wire
  | .late _ => some ⟨.error late, [], c.wire, deadline⟩
  | .failed _ condition text => some ⟨.error (.ofSystem condition text), [], c.wire, now⟩

/-! ## Exchanges -/

/-- One response is read.  The frame of a data unit that slaves respond with is read whole, in
whatever chunks it comes, and what comes behind it stays.  Of other bytes at most 256 are read, a
data unit is given only for the frame of the slave that was asked, and each place that is looked up
is there. -/
theorem transact_one_frame (l : RtuLink) (slave : UInt8) (c : Conduct) (now : Nanos) :
    (∀ pdu, Rtu.IsResponse pdu →
      Rtu.responseSize ((Rtu.encode slave pdu).getD 1 0) ((Rtu.encode slave pdu).getD 2 0) =
          .ok (Rtu.encode slave pdu).length ∧
        (c.sending = .whole → Rtu.encode slave pdu <+: c.wire.inTime (now + l.timeout) →
          (l.transact slave c now).result = .ok pdu ∧
            c.wire.bytes = Rtu.encode slave pdu ++ (l.transact slave c now).wire.bytes)) ∧
      (∃ consumed, c.wire.bytes = consumed ++ (l.transact slave c now).wire.bytes ∧
        consumed.length ≤ 256 ∧
        ∀ pdu, (l.transact slave c now).result = .ok pdu →
          Rtu.decode consumed = .ok (slave, pdu)) ∧
      l.transactAt slave c now = some (l.transact slave c now) := by
  refine ⟨fun pdu response => ⟨Rtu.responseSize_encode response slave, fun whole came => ?_⟩, ?_⟩
  · unfold transact
    rw [whole]
    obtain ⟨result, -, consumed⟩ := receive_frame response came
    exact ⟨result, consumed⟩
  unfold transact transactAt
  cases c.sending with
  | whole => exact ⟨receive_consumes .., receiveAt_eq ..⟩
  | late taken => exact ⟨⟨[], rfl, Nat.zero_le 256, fun _ h => by cases h⟩, rfl⟩
  | failed taken condition text => exact ⟨⟨[], rfl, Nat.zero_le 256, fun _ h => by cases h⟩, rfl⟩

/-- An open line. -/
def openLine : RtuLink where
  settings := ⟨"/dev/ttyUSB0", 9600, 8, 1, .none⟩
  timeout := 100
  state := (LinkState.down 1 1).made

/-- One register, cut inside its head and inside its checksum, with a byte behind it. -/
def cutRegister : Conduct where
  wire := [(10, .bytes [1, 3]), (20, .bytes [2, 0, 7, 249]), (30, .bytes [134, 5])]

/-- The register is read, and the byte behind it stays. -/
theorem transact_cutRegister :
    (openLine.transact 1 cutRegister 0).result = .ok ⟨[3, 2, 0, 7], by decide⟩ ∧
      (openLine.transact 1 cutRegister 0).wire.bytes = [5] := by
  have register : Rtu.IsResponse ⟨[3, 2, 0, 7], by decide⟩ := .data rfl rfl rfl
  have frame : Rtu.encode 1 ⟨[3, 2, 0, 7], by decide⟩ = [1, 3, 2, 0, 7, 249, 134] := by
    decide +kernel
  obtain ⟨-, read⟩ := (transact_one_frame openLine 1 cutRegister 0).1 _ register
  obtain ⟨result, bytes⟩ := read rfl (by rw [frame]; decide)
  have all : cutRegister.wire.bytes = [1, 3, 2, 0, 7, 249, 134] ++ [5] := rfl
  rw [frame, all] at bytes
  exact ⟨result, (List.append_cancel_left bytes).symm⟩

end RtuLink

end Fieldbus
