import Fieldbus.Proofs.Link.Frames

/-!
# Waiting for a reply

`TcpLink.receive_awaited` says how waiting for the reply to a transaction ends, if the buffer and
what is under way begin a stream of replies.  Whatever the chunks are, the reply is found, or it
is not among the bytes that came before the deadline and before the link broke.  A malformed frame
is not among the ends.
-/

namespace Fieldbus

open Tcp (Reply stream transactionOf CutFrame Sought seek_stream)

/-! ## Arrivals -/

/-- The bytes that arrive up to a deadline and before the link breaks. -/
def Wire.inTime (deadline : Nanos) : Wire → List UInt8
  | (time, .bytes chunk) :: rest =>
    if deadline < time then [] else chunk ++ Wire.inTime deadline rest
  | _ => []

/-- Whether the link breaks up to a deadline: its end or a condition arrives. -/
def Wire.Breaks (deadline : Nanos) (wire : Wire) : Prop :=
  ∃ time arrival, (time, arrival) ∈ wire ∧ time ≤ deadline ∧ ∀ chunk, arrival ≠ .bytes chunk

@[simp] theorem Wire.bytes_nil : Wire.bytes [] = [] := rfl

@[simp] theorem Wire.bytes_chunk (time : Nanos) (chunk : List UInt8) (rest : Wire) :
    Wire.bytes ((time, .bytes chunk) :: rest) = chunk ++ rest.bytes := rfl

@[simp] theorem Wire.bytes_append (earlier later : Wire) :
    Wire.bytes (earlier ++ later) = earlier.bytes ++ later.bytes := List.flatMap_append

theorem Wire.Breaks.cons {deadline : Nanos} {wire : Wire} (h : wire.Breaks deadline)
    (entry : Nanos × Arrival) : Wire.Breaks deadline (entry :: wire) := by
  obtain ⟨time, arrival, here, soon, broken⟩ := h
  exact ⟨time, arrival, List.mem_cons_of_mem _ here, soon, broken⟩

theorem SystemCondition.isConnection (condition : SystemCondition) (text : String) :
    (Fault.ofSystem condition text).isConnection = true := by
  cases condition <;> rfl

namespace TcpLink

variable {first transaction : UInt16} {late : Fault} {deadline now time : Nanos}
  {replies skipped left : List Reply} {buffer rest : List UInt8} {wire : Wire}

/-- What waiting for the reply of a transaction ends with, where the buffer and the wire begin
the stream of the replies. -/
inductive Awaited (first transaction : UInt16) (late : Fault) (deadline : Nanos)
    (replies : List Reply) (buffer : List UInt8) (wire : Wire) : Received → Prop where
  /-- The reply is there. -/
  | answered {skipped left : List Reply} {r : Reply} {rest : List UInt8} {wire' : Wire}
      {now : Nanos} :
    replies = skipped ++ r :: left →
    buffer ++ wire.bytes = stream first (skipped ++ [r]) ++ rest ++ wire'.bytes →
    transactionOf first r.request = transaction →
    Awaited first transaction late deadline replies buffer wire
      ⟨.ok (r.frame first), rest, wire', now⟩
  /-- The time is up, and the reply is not among the bytes that came. -/
  | late {skipped left : List Reply} {rest : List UInt8} {wire' : Wire} {now : Nanos} :
    replies = skipped ++ left →
    buffer ++ wire.bytes = stream first skipped ++ rest ++ wire'.bytes →
    buffer ++ wire.inTime deadline = stream first skipped ++ rest →
    (∀ r ∈ skipped, transactionOf first r.request ≠ transaction) →
    CutFrame first left rest →
    Awaited first transaction late deadline replies buffer wire ⟨.error late, rest, wire', now⟩
  /-- The link breaks, and the reply is not among the bytes that came. -/
  | broken {skipped left : List Reply} {rest : List UInt8} {wire' : Wire} {now : Nanos}
      {fault : Fault} :
    replies = skipped ++ left →
    fault.isConnection = true →
    wire.Breaks deadline →
    buffer ++ wire.inTime deadline = stream first skipped ++ rest →
    (∀ r ∈ skipped, transactionOf first r.request ≠ transaction) →
    CutFrame first left rest →
    Awaited first transaction late deadline replies buffer wire ⟨.error fault, rest, wire', now⟩

/-- Waiting goes on behind frames of other transactions and with one more chunk. -/
theorem Awaited.behind {chunk : List UInt8} {result : Received}
    (foreign : ∀ r ∈ skipped, transactionOf first r.request ≠ transaction)
    (soon : ¬ deadline < time)
    (h : Awaited first transaction late deadline left (rest ++ chunk) wire result) :
    Awaited first transaction late deadline (skipped ++ left) (stream first skipped ++ rest)
      ((time, .bytes chunk) :: wire) result := by
  have inTime : Wire.inTime deadline ((time, .bytes chunk) :: wire) =
      chunk ++ wire.inTime deadline := if_neg soon
  have both {more : List Reply} (others : ∀ r ∈ more, transactionOf first r.request ≠ transaction) :
      ∀ r ∈ skipped ++ more, transactionOf first r.request ≠ transaction := by
    intro r hr
    rcases List.mem_append.mp hr with hr | hr
    · exact foreign r hr
    · exact others r hr
  cases h with
  | answered whole bytes own =>
    subst whole
    refine .answered (List.append_assoc ..).symm ?_ own
    simp only [Wire.bytes_chunk, List.append_assoc, Tcp.stream_append] at bytes ⊢
    rw [bytes]
  | late whole bytes came others cut =>
    subst whole
    refine .late (List.append_assoc ..).symm ?_ ?_ (both others) cut
    · simp only [Wire.bytes_chunk, List.append_assoc, Tcp.stream_append] at bytes ⊢
      rw [bytes]
    · simp only [inTime, List.append_assoc, Tcp.stream_append] at came ⊢
      rw [came]
  | broken whole connection breaks came others cut =>
    subst whole
    refine .broken (List.append_assoc ..).symm connection (breaks.cons _) ?_ (both others) cut
    simp only [inTime, List.append_assoc, Tcp.stream_append] at came ⊢
    rw [came]

/-- Waiting for a reply never meets a malformed frame, however the bytes are cut. -/
theorem receive_awaited (h : buffer ++ wire.bytes <+: stream first replies) :
    Awaited first transaction late deadline replies buffer wire
      (receive transaction late deadline now buffer wire) := by
  induction wire generalizing replies buffer now with
  | nil =>
    have sought := seek_stream transaction ((List.prefix_append ..).trans h)
    unfold receive
    generalize Tcp.seek transaction buffer = result at sought ⊢
    cases sought with
    | cut whole bytes start foreign cut =>
      refine .late whole ?_ ?_ foreign cut
      · simp [bytes]
      · simp [Wire.inTime, bytes]
    | found whole bytes start foreign own =>
      refine .answered whole ?_ own
      rw [bytes]
  | cons entry wire ih =>
    obtain ⟨time, arrival⟩ := entry
    have sought := seek_stream transaction ((List.prefix_append ..).trans h)
    unfold receive
    generalize Tcp.seek transaction buffer = result at sought ⊢
    cases sought with
    | found whole bytes start foreign own =>
      refine .answered whole ?_ own
      rw [bytes]
    | cut whole bytes start foreign cut =>
      subst whole bytes
      by_cases soon : deadline < time
      · simp only [if_pos soon]
        refine .late rfl rfl ?_ foreign cut
        cases arrival <;> simp [Wire.inTime, soon]
      · simp only [if_neg soon]
        cases arrival with
        | bytes chunk =>
          refine Awaited.behind foreign soon (ih ?_)
          rw [Tcp.stream_append, List.append_assoc, List.prefix_append_right_inj,
            Wire.bytes_chunk, ← List.append_assoc] at h
          exact h
        | closed =>
          refine .broken rfl rfl ?_ ?_ foreign cut
          · exact ⟨time, .closed, List.mem_cons_self, Nat.le_of_not_lt soon, by simp⟩
          · simp [Wire.inTime]
        | failed condition text =>
          refine .broken rfl (condition.isConnection text) ?_ ?_ foreign cut
          · exact ⟨time, .failed condition text, List.mem_cons_self, Nat.le_of_not_lt soon, by simp⟩
          · simp [Wire.inTime]

/-- What is found in the buffer is returned at once. -/
theorem receive_at_once {frame : List UInt8}
    (found : Tcp.seek transaction buffer = (.ok (some frame), rest)) :
    receive transaction late deadline now buffer wire = ⟨.ok frame, rest, wire, now⟩ := by
  unfold receive
  simp only [found]

/-! ## One exchange -/

theorem exchange_of_isUp {l : TcpLink} (up : l.state.isUp = true) (unit : UInt8) (pdu : Pdu)
    (c : Conduct) (now : Nanos) :
    l.exchange unit pdu c now =
      let frame := Tcp.encode l.ids.next unit pdu
      let r := l.transact l.ids.next c now
      let result := r.result >>= fun response => Pdu.ofBytes (response.drop Tcp.headerSize)
      let response := match r.result with
        | .ok response => response
        | .error _ => []
      ⟨result,
        { l with
          ids := ⟨l.ids.next + 1⟩, state := l.state.begun frame, buffer := r.buffer }.settle
          result response,
        r.wire, r.now, c.sending.taken frame⟩ := by
  simp only [exchange, connect, LinkState.gate, up, if_true]
  rfl

theorem ofBytes_frame (r : Reply) :
    Pdu.ofBytes ((r.frame first).drop Tcp.headerSize) = .ok r.pdu := by
  have nonempty : r.pdu.bytes.isEmpty = false := by
    have pos := r.nonempty
    rw [Pdu.size] at pos
    cases h : r.pdu.bytes with
    | nil => simp [h] at pos
    | cons _ _ => rfl
  rw [Reply.frame, Tcp.drop_encode, Pdu.ofBytes, nonempty, if_neg (by simp),
    dif_pos r.pdu.fits]

theorem settle_kept (l : TcpLink) {fault : Fault} (mild : isFatal fault = false)
    (response : List UInt8) :
    l.settle (.error fault) response = { l with state := l.state.blamed fault } := by
  simp [settle, mild]

theorem settle_dropped (l : TcpLink) {fault : Fault} (fatal : isFatal fault = true)
    (response : List UInt8) :
    l.settle (.error fault) response =
      { l with state := (l.state.blamed fault).dropped, buffer := [] } := by
  simp [settle, fatal, dropped]

end TcpLink

end Fieldbus
