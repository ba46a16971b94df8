import Fieldbus.Proofs.Link.SerialReception
import Fieldbus.Proofs.Pdu.Conformance
import Fieldbus.Proofs.Plan.Acquisition

/-!
# Reads over a serial line

A device answers each request with the right frame, after any delay.  A read whose time is up throws
away the bytes that have arrived by then, and no others.  So what comes later is on the line when
the next request goes out, and nothing in it says which request it answers: a reply to a read of one
register is taken for the reply to a read of another one (`Query.late_reply_taken`).

That is the only way for a read to give other values than its own (`Query.own_unless_late`).  If
nothing is on the line, a read gives its own values, or the device has refused it, or its time is up
before the reply is there.
-/

namespace Fieldbus

/-! ## Wires that only carry bytes -/

namespace Wire

variable {wire rest : Wire} {deadline now : Nanos} {count : Nat}

/-- Nothing but bytes arrives. -/
def Flows (wire : Wire) : Prop := ∀ entry ∈ wire, ∃ chunk, entry.2 = .bytes chunk ∧ chunk ≠ []

theorem Flows.of_cons {entry : Nanos × Arrival} (h : Flows (entry :: rest)) : rest.Flows :=
  fun e he => h e (List.mem_cons_of_mem _ he)

theorem Flows.eq_nil (h : wire.Flows) (none : wire.bytes = []) : wire = [] := by
  cases wire with
  | nil => rfl
  | cons entry rest =>
    obtain ⟨time, arrival⟩ := entry
    obtain ⟨chunk, rfl, some⟩ : ∃ chunk, arrival = .bytes chunk ∧ chunk ≠ [] :=
      h _ List.mem_cons_self
    rw [bytes_chunk] at none
    exact absurd (List.append_eq_nil_iff.mp none).1 some

/-- What is left of a wire arrives at the same times.  Chunks may be cut. -/
def Remains (wire rest : Wire) : Prop :=
  ∀ entry ∈ rest, ∃ whole ∈ wire, entry.1 = whole.1 ∧
    (entry.2 = whole.2 ∨ ∃ chunk n, whole.2 = .bytes chunk ∧ n < chunk.length ∧
      entry.2 = .bytes (chunk.drop n))

theorem Remains.of_subset (h : rest ⊆ wire) : Remains wire rest :=
  fun entry member => ⟨entry, h member, rfl, .inl rfl⟩

theorem Remains.flows (h : Remains wire rest) (flows : wire.Flows) : rest.Flows := by
  intro entry member
  obtain ⟨whole, source, -, same | ⟨chunk, n, -, inside, cut⟩⟩ := h entry member
  · rw [same]
    exact flows whole source
  · exact ⟨_, cut, List.drop_eq_nil_iff.not.mpr (Nat.not_le.mpr inside)⟩

theorem Remains.trans {last : Wire} (first : Remains wire rest) (second : Remains rest last) :
    Remains wire last := by
  intro entry member
  obtain ⟨middle, between, time, cut⟩ := second entry member
  obtain ⟨whole, source, earlier, before⟩ := first middle between
  refine ⟨whole, source, time.trans earlier, ?_⟩
  rcases cut with same | ⟨chunk, n, middle, inside, cut⟩
  · rw [same]
    exact before
  · rcases before with same | ⟨chunk', m, whole, within, before⟩
    · exact .inr ⟨chunk, n, same ▸ middle, inside, cut⟩
    · cases middle.symm.trans before
      rw [List.length_drop] at inside
      exact .inr ⟨chunk', m + n, whole, by omega, by rw [cut, List.drop_drop]⟩

theorem takeUntil_remains (deadline : Nanos) : (now : Nanos) → (count : Nat) → (wire : Wire) →
    Remains wire (takeUntil deadline now count wire).rest
  | _, 0, wire => by cases wire <;> exact .of_subset fun _ h => h
  | _, _ + 1, [] => .of_subset fun _ h => h
  | now, count + 1, (time, arrival) :: rest => by
    unfold takeUntil
    split
    · exact .of_subset fun _ h => h
    · cases arrival with
      | closed => exact .of_subset fun _ h => h
      | failed => exact .of_subset fun _ => List.mem_cons_of_mem _
      | bytes chunk =>
        simp only
        split
        next longer =>
          intro entry member
          rcases List.mem_cons.mp member with rfl | member
          · exact ⟨_, List.mem_cons_self, rfl, .inr ⟨chunk, count + 1, rfl, longer, rfl⟩⟩
          · exact ⟨entry, List.mem_cons_of_mem _ member, rfl, .inl rfl⟩
        next =>
          intro entry member
          obtain ⟨whole, source, same⟩ :=
            takeUntil_remains deadline _ (count + 1 - chunk.length) rest entry member
          exact ⟨whole, List.mem_cons_of_mem _ source, same⟩

/-- What comes in time comes first. -/
theorem inTime_prefix (deadline : Nanos) (wire : Wire) : wire.inTime deadline <+: wire.bytes := by
  induction wire with
  | nil => exact List.nil_prefix
  | cons entry rest ih =>
    obtain ⟨time, arrival⟩ := entry
    cases arrival with
    | closed | failed => exact List.nil_prefix
    | bytes chunk =>
      unfold inTime
      split
      · exact List.nil_prefix
      · exact (List.prefix_append_right_inj chunk).mpr ih

/-- What does not come in time comes later. -/
theorem exists_late (flows : wire.Flows) (cut : wire.inTime deadline ≠ wire.bytes) :
    ∃ entry ∈ wire, deadline < entry.1 := by
  induction wire with
  | nil => exact absurd rfl cut
  | cons entry rest ih =>
    obtain ⟨time, arrival⟩ := entry
    obtain ⟨chunk, rfl, -⟩ : ∃ chunk, arrival = .bytes chunk ∧ chunk ≠ [] :=
      flows _ List.mem_cons_self
    by_cases late : deadline < time
    · exact ⟨_, List.mem_cons_self, late⟩
    · have others : inTime deadline rest ≠ bytes rest := fun same => cut (by
        rw [bytes_chunk, ← same]
        exact if_neg late)
      obtain ⟨entry, member, later⟩ := ih flows.of_cons others
      exact ⟨entry, List.mem_cons_of_mem _ member, later⟩

/-- Too few bytes in time make the wait end at the deadline. -/
theorem takeUntil_late (now : Nanos) (flows : wire.Flows)
    (short : (wire.inTime deadline).length < count) :
    (takeUntil deadline now count wire).ending = .late ∧
      (takeUntil deadline now count wire).now = deadline := by
  induction wire generalizing now count with
  | nil =>
    cases count with
    | zero => cases short
    | succ count => exact ⟨rfl, rfl⟩
  | cons entry rest ih =>
    obtain ⟨time, arrival⟩ := entry
    obtain ⟨chunk, rfl, -⟩ : ∃ chunk, arrival = .bytes chunk ∧ chunk ≠ [] :=
      flows _ List.mem_cons_self
    cases count with
    | zero => cases short
    | succ count =>
      unfold takeUntil
      split
      next => exact ⟨rfl, rfl⟩
      next soon =>
        have whole : inTime deadline ((time, .bytes chunk) :: rest) =
            chunk ++ inTime deadline rest := if_neg soon
        rw [whole, List.length_append] at short
        dsimp only
        rw [if_neg (by omega)]
        exact ih _ flows.of_cons (by omega)

end Wire

/-- An exchange is parsed where it stands. -/
theorem Called.parsed_eq {L α : Type} (e : Called L Pdu) (blame : L → Fault → L)
    (parse : Pdu → Except Fault α) :
    (e.parsed blame parse).sent = e.sent ∧ (e.parsed blame parse).now = e.now ∧
      (e.parsed blame parse).wire = e.wire ∧
      (e.parsed blame parse).result = e.result >>= parse := by
  unfold parsed
  cases result : e.result with
  | error fault => exact ⟨rfl, rfl, rfl, rfl⟩
  | ok response =>
    dsimp only [bind, Except.bind]
    cases parse response with
    | error fault => exact ⟨rfl, rfl, rfl, rfl⟩
    | ok value => exact ⟨rfl, rfl, rfl, rfl⟩

/-! ## Waiting for one frame -/

namespace RtuLink

variable {slave : UInt8} {late : Fault} {deadline now : Nanos} {wire : Wire} {pdu : Pdu}

theorem receive_remains (slave : UInt8) (late : Fault) (deadline now : Nanos) (wire : Wire) :
    Wire.Remains wire (receive slave late deadline now wire).wire := by
  unfold receive
  have head := Wire.takeUntil_remains deadline now 3 wire
  have body (size : Nat) := head.trans (Wire.takeUntil_remains deadline
    (Wire.takeUntil deadline now 3 wire).now (size - 3) (Wire.takeUntil deadline now 3 wire).rest)
  dsimp only
  split
  next => exact head
  next => exact head
  split
  next => exact head
  next size _ =>
    split
    next => exact body size
    next => exact body size
    next => exact body size

/-- If the frame of a response is all that is on the line, it is read, or the time is up before it
is there. -/
theorem receive_only (late : Fault) (deadline now : Nanos) (h : Rtu.IsResponse pdu)
    (flows : wire.Flows) (only : wire.bytes = Rtu.encode slave pdu) :
    ((receive slave late deadline now wire).result = .ok pdu ∧
        (receive slave late deadline now wire).wire = []) ∨
      ((receive slave late deadline now wire).result = .error late ∧
        (receive slave late deadline now wire).now = deadline ∧
        ∃ entry ∈ wire, deadline < entry.1) := by
  have begun := only ▸ Wire.inTime_prefix deadline wire
  by_cases came : wire.inTime deadline = Rtu.encode slave pdu
  · have begins : Rtu.encode slave pdu <+: wire.inTime deadline :=
      ⟨[], by rw [came, List.append_nil]⟩
    obtain ⟨result, -, consumed⟩ := @receive_frame slave late deadline now wire pdu h begins
    rw [only] at consumed
    exact .inl ⟨result, ((receive_remains slave late deadline now wire).flows flows).eq_nil
      (List.append_right_eq_self.mp consumed.symm)⟩
  refine .inr ?_
  have few := begun.length_le.lt_of_ne fun same => came (begun.eq_of_length same)
  have later := Wire.exists_late flows (only ▸ came)
  have size := announcedSize_encode h slave
  unfold receive
  by_cases three : (wire.inTime deadline).length < 3
  · obtain ⟨ending, ended⟩ := Wire.takeUntil_late now flows three
    simp only [ending]
    exact ⟨trivial, ended, later⟩
  · obtain ⟨headEnds, headBytes, headLeft⟩ :=
      Wire.takeUntil_inTime deadline now 3 wire (Nat.not_lt.mp three)
    have remains := Wire.takeUntil_remains deadline now 3 wire
    obtain ⟨rest, whole⟩ := begun
    have head : (wire.inTime deadline).take 3 = (Rtu.encode slave pdu).take 3 := by
      rw [← whole, List.take_append_of_le_length (Nat.not_lt.mp three)]
    rw [head] at headBytes
    have short : ((Wire.takeUntil deadline now 3 wire).rest.inTime deadline).length <
        (Rtu.encode slave pdu).length - 3 := by
      rw [headLeft, List.length_drop]
      omega
    obtain ⟨bodyEnds, bodyEnded⟩ := Wire.takeUntil_late
      (Wire.takeUntil deadline now 3 wire).now (remains.flows flows) short
    simp only [headEnds, headBytes, size, bodyEnds]
    exact ⟨trivial, bodyEnded, later⟩

/-- What a response leaves on the line: an error throws away what has arrived, unless the line
broke. -/
def Received.leftover (r : Received) : Wire :=
  match r.result with
  | .ok _ => r.wire
  | .error fault => if fault.isConnection then r.wire else r.wire.discard r.now

theorem settle_wire (l : RtuLink) (r : Received) : (l.settle r).2 = r.leftover := by
  unfold settle Received.leftover
  cases r.result with
  | ok _ => rfl
  | error fault =>
    dsimp only
    split
    · rfl
    · rfl

theorem sent_connect (l : RtuLink) (c : Conduct) (now : Nanos) :
    (l.connect c now).sent = [] ∧ (l.connect c now).wire = c.wire := by
  unfold connect
  split
  next => exact ⟨rfl, rfl⟩
  next => exact ⟨rfl, rfl⟩
  next =>
    dsimp only
    split
    · exact ⟨rfl, rfl⟩
    · exact ⟨rfl, rfl⟩

/-- A read asks for nothing and fails, or it asks for the units of its batch and waits for a
response. -/
theorem read_cases (l : RtuLink) (b : Batch) {c : Conduct} (whole : c.sending = .whole)
    (now : Nanos) :
    ((l.read b c now).sent = [] ∧ (∃ fault, (l.read b c now).result = .error fault) ∧
        (l.read b c now).wire = c.wire) ∨
      ∃ (request : Pdu) (late : Fault) (deadline start : Nanos),
        b.request = .ok request ∧ late.isTimeout = true ∧
        (l.read b c now).sent = Rtu.encode b.slave request ∧
        (l.read b c now).now = (receive b.slave late deadline start c.wire).now ∧
        (l.read b c now).wire = (receive b.slave late deadline start c.wire).leftover ∧
        (l.read b c now).result =
          (receive b.slave late deadline start c.wire).result >>= b.parse := by
  unfold read
  cases requested : b.request with
  | error fault => exact .inl ⟨rfl, ⟨fault, rfl⟩, rfl⟩
  | ok request =>
    dsimp only
    obtain ⟨sent, ended, left, parsed⟩ :=
      Called.parsed_eq (l.exchange b.slave request c now) blamed b.parse
    rw [sent, ended, left, parsed]
    obtain ⟨unsent, untouched⟩ := sent_connect l c now
    unfold exchange
    dsimp only
    generalize l.connect c now = made at unsent untouched ⊢
    cases made.result with
    | error fault => exact .inl ⟨unsent, ⟨fault, rfl⟩, untouched⟩
    | ok _ =>
      dsimp only
      rw [settle_wire]
      unfold transact
      rw [whole]
      exact .inr ⟨request, _, _, _, rfl, rfl, rfl, rfl, rfl, rfl⟩

end RtuLink

/-! ## Answers -/

/-- Frames are the same only for the same slave and data unit. -/
theorem Rtu.encode_inj {slave other : UInt8} {pdu data : Pdu}
    (same : encode slave pdu = encode other data) : slave = other ∧ pdu = data := by
  obtain ⟨body, -⟩ := List.append_inj' same rfl
  obtain ⟨rfl, bytes⟩ := List.cons.inj body
  exact ⟨rfl, Pdu.mk.injEq .. ▸ bytes⟩

/-- A device refuses units that it does not have. -/
theorem Image.answer_beyond (m : Image) (slave : UInt8) {fc : UInt8} {start quantity : UInt16}
    (read : FunctionCode.isRead fc = true) (positive : 1 ≤ quantity)
    (limit : quantity ≤ FunctionCode.readCeiling fc)
    (beyond : 0x10000 < start.toNat + quantity.toNat) :
    m.answer slave (Pdu.ofWords fc start quantity).bytes = refusalResponse fc 0x02 := by
  have nonzero : quantity ≠ 0 := by
    rintro rfl
    exact absurd positive (by decide)
  simp only [answer, Pdu.ofWords, wordBytes, List.cons_append, List.nil_append, wordOf_bytes,
    read, Bool.not_true, Bool.false_eq_true, if_false]
  rw [if_neg (by simp [nonzero, UInt16.not_lt.mpr limit]), if_pos beyond]

namespace Batch

variable {b : Batch} {request response : Pdu} {m : Image}

/-- A request is made for some units, but not for too many. -/
theorem request_eq_ok (made : b.request = .ok request) :
    FunctionCode.isRead b.function = true ∧ 1 ≤ b.quantity ∧
      b.quantity ≤ FunctionCode.readCeiling b.function ∧
      request = Pdu.ofWords b.function b.start b.quantity := by
  unfold Batch.request Pdu.readRequest at made
  split at made
  next => cases made
  next read =>
    split at made
    next => cases made
    next bounds =>
      cases made
      obtain ⟨some, limit⟩ := not_or.mp bounds
      have positive : 1 ≤ b.quantity := by
        rw [UInt16.le_iff_toNat_le]
        have nonzero : b.quantity.toNat ≠ 0 := fun zero => some (UInt16.toNat_inj.mp zero)
        exact Nat.one_le_iff_ne_zero.mpr nonzero
      exact ⟨by simpa using read, positive, UInt16.not_lt.mp limit, rfl⟩

/-- A device refuses units that it does not have, and the others are read from its answer. -/
theorem answer_cases (made : b.request = .ok request)
    (answer : response.bytes = m.answer b.slave request.bytes) :
    Rtu.IsResponse response ∧
      ((b.start.toNat + b.quantity.toNat ≤ 0x10000 ∧
          b.parse response = .ok (m.units b.slave b.function b.start b.quantity.toNat)) ∨
        (0x10000 < b.start.toNat + b.quantity.toNat ∧
          b.parse response = .error (.exception (b.function &&& 0x7F) 0x02))) := by
  obtain ⟨read, positive, limit, rfl⟩ := request_eq_ok made
  by_cases range : b.start.toNat + b.quantity.toNat ≤ 0x10000
  · rw [m.answer_ofWords b.slave read positive limit range] at answer
    have size := m.length_units b.slave b.function b.start b.quantity.toNat
    have few : (payload b.function
        (m.units b.slave b.function b.start b.quantity.toNat)).length ≤ 250 :=
      length_payload size ▸ payloadSize_le limit
    refine ⟨.data read ?_ answer, .inl ⟨range, ?_⟩⟩
    · exact (UInt8.toNat_ofNat_of_lt (by simp only [UInt8.size]; omega)).symm
    · exact Pdu.parseRead_readResponse read limit size (m.areUnits_units _ _ _ _) answer
  · rw [m.answer_beyond b.slave read positive limit (Nat.not_le.mp range)] at answer
    refine ⟨.refusal ?_ answer, .inr ⟨Nat.not_le.mp range, Pdu.parseRead_refused answer _⟩⟩
    rcases FunctionCode.eq_of_isRead read with function | function | function | function
    all_goals
      rw [function]
      decide

end Batch

/-! ## Reads -/

/-- A read over a serial line, and how the line and its device behave. -/
structure Query where
  link : RtuLink
  /-- What is still to be read when the call is made. -/
  outstanding : Wire
  batch : Batch
  time : Nanos
  /-- How opening the line goes, if it is closed. -/
  dial : Dial
  /-- What the device holds when it answers. -/
  image : Image
  /-- What arrives in reply to the request. -/
  reply : Wire

namespace Query

def conduct (q : Query) : Conduct := { dial := q.dial, wire := q.outstanding ++ q.reply }

def call (q : Query) : Called RtuLink (List UInt16) := q.link.read q.batch q.conduct q.time

/-- The values of the registers of the batch. -/
def own (q : Query) : List UInt16 :=
  q.image.units q.batch.slave q.batch.function q.batch.start q.batch.quantity.toNat

/-- The device replies to the request with the frame of its answer, in any chunks and at any times,
and to nothing else. -/
structure Replied (q : Query) : Prop where
  flows : q.reply.Flows
  silent : q.call.sent = [] → q.reply = []
  answer : ∀ slave request, q.call.sent = Rtu.encode slave request →
    ∃ response : Pdu, response.bytes = q.image.answer slave request.bytes ∧
      q.reply.bytes = Rtu.encode slave response

/-- The time of the call is up, and something of the reply comes after that. -/
structure Late (q : Query) : Prop where
  timeout : ∃ fault, q.call.result = .error fault ∧ fault.isTimeout = true
  later : ∃ entry ∈ q.reply, q.call.now < entry.1

/-- The ends of a call over a line on which nothing is outstanding. -/
inductive Fair (q : Query) : Prop where
  /-- No request goes out. -/
  | unsent : q.call.sent = [] → (∃ fault, q.call.result = .error fault) → Fair q
  | own : q.call.result = .ok q.own → Fair q
  /-- The device does not have all registers of the batch. -/
  | refused : 0x10000 < q.batch.start.toNat + q.batch.quantity.toNat →
    q.call.result = .error (.exception (q.batch.function &&& 0x7F) 0x02) → Fair q
  | late : q.Late → Fair q

/-- Reads one after another over a line, each with what the ones before have left on it. -/
inductive Reads : RtuLink → Wire → List Query → Prop where
  | nil {l : RtuLink} {wire : Wire} : Reads l wire []
  | cons {q : Query} {rest : List Query} : q.Replied → Reads q.call.link q.call.wire rest →
    Reads q.link q.outstanding (q :: rest)

/-- A read with nothing outstanding ends fairly.  It leaves nothing outstanding, unless its own
reply is late. -/
theorem fair_of_clean {q : Query} (replied : q.Replied) (clean : q.outstanding = []) :
    q.Fair ∧ (q.call.wire = [] ∨ q.Late) := by
  have all : q.conduct.wire = q.reply := by
    rw [conduct, clean]
    rfl
  rcases q.link.read_cases q.batch (c := q.conduct) rfl q.time with
    ⟨unsent, failed, left⟩ |
      ⟨request, late, deadline, start, made, timeout, sent, ended, left, result⟩
  · have nothing := all.trans (replied.silent unsent)
    exact ⟨.unsent unsent failed, .inl (left.trans nothing)⟩
  obtain ⟨response, answer, frame⟩ := replied.answer _ _ sent
  obtain ⟨isResponse, parsed⟩ := Batch.answer_cases made answer
  rw [all] at ended left result
  rcases RtuLink.receive_only late deadline start isResponse replied.flows frame with
    ⟨received, empty⟩ | ⟨expired, finish, later⟩
  · rw [received] at result
    have consumed : q.call.wire = [] := by
      refine left.trans ?_
      rw [RtuLink.Received.leftover, received]
      exact empty
    refine ⟨?_, .inl consumed⟩
    rcases parsed with ⟨-, own⟩ | ⟨beyond, refused⟩
    · exact .own (result.trans own)
    · exact .refused beyond (result.trans refused)
  · rw [expired] at result
    have overdue : q.Late := by
      refine ⟨⟨late, result, timeout⟩, ?_⟩
      obtain ⟨entry, member, after⟩ := later
      exact ⟨entry, member, (ended.trans finish).trans_lt after⟩
    exact ⟨.late overdue, .inr overdue⟩

theorem Fair.eq_own {q : Query} (h : q.Fair) {words : List UInt16}
    (ok : q.call.result = .ok words) : words = q.own := by
  cases h with
  | unsent _ failed =>
    obtain ⟨fault, failed⟩ := failed
    cases ok.symm.trans failed
  | own own => exact Except.ok.inj (ok.symm.trans own)
  | refused _ refused => cases ok.symm.trans refused
  | late late =>
    obtain ⟨fault, failed, -⟩ := late.timeout
    cases ok.symm.trans failed

theorem Reads.replied {l : RtuLink} {wire : Wire} {queries : List Query}
    (run : Reads l wire queries) {q : Query} (member : q ∈ queries) : q.Replied := by
  induction run with
  | nil => cases member
  | cons replied _ ih =>
    rcases List.mem_cons.mp member with rfl | member
    · exact replied
    · exact ih member

/-- Nothing is outstanding until a read is late. -/
theorem Reads.clean_or_late {l : RtuLink} {wire : Wire} {queries : List Query}
    (run : Reads l wire queries) (clean : wire = []) {i : Nat} {q : Query}
    (here : queries[i]? = some q) :
    q.outstanding = [] ∨ ∃ j e, j < i ∧ queries[j]? = some e ∧ e.Late := by
  induction run generalizing i with
  | nil => cases here
  | @cons first rest replied _ ih =>
    cases i with
    | zero =>
      cases Option.some.inj here
      exact .inl clean
    | succ i =>
      rcases (fair_of_clean replied clean).2 with empty | late
      · rcases ih empty here with still | ⟨j, e, before, there, late⟩
        · exact .inl still
        · exact .inr ⟨j + 1, e, Nat.succ_lt_succ before, there, late⟩
      · exact .inr ⟨0, first, Nat.succ_pos i, rfl, late⟩

/-- A read ends fairly if nothing is outstanding, which is so until a read is late.  So a read that
succeeds gives the values of its own registers, unless a read before it was late and something is
outstanding when its request goes out. -/
theorem own_unless_late {l : RtuLink} {queries : List Query} (run : Reads l [] queries) {i : Nat}
    {q : Query} (here : queries[i]? = some q) :
    (q.outstanding = [] → q.Fair) ∧
      (q.outstanding = [] ∨ ∃ j e, j < i ∧ queries[j]? = some e ∧ e.Late) ∧
      ∀ words, q.call.result = .ok words → words = q.own ∨
        q.outstanding ≠ [] ∧ ∃ j e, j < i ∧ queries[j]? = some e ∧ e.Late := by
  have replied := run.replied (List.mem_of_getElem? here)
  have fair (clean : q.outstanding = []) : q.Fair := (fair_of_clean replied clean).1
  refine ⟨fair, run.clean_or_late rfl here, fun words ok => ?_⟩
  by_cases clean : q.outstanding = []
  · exact .inl ((fair clean).eq_own ok)
  · exact .inr ⟨clean, (run.clean_or_late rfl here).resolve_left clean⟩

/-! ## A late reply -/

/-- A reply that is the frame of the answer to the request. -/
theorem Replied.of_frame {q : Query} (slave : UInt8) (request response : Pdu)
    (flows : q.reply.Flows) (sent : q.call.sent = Rtu.encode slave request)
    (answer : response.bytes = q.image.answer slave request.bytes)
    (frame : q.reply.bytes = Rtu.encode slave response) : q.Replied where
  flows := flows
  silent nothing := by
    rw [sent] at nothing
    cases nothing
  answer other request' also := by
    obtain ⟨rfl, rfl⟩ := Rtu.encode_inj (sent.symm.trans also)
    exact ⟨response, answer, frame⟩

/-- Each register holds seven more than its address. -/
def counting : Image := ⟨fun _ _ _ => false, fun _ _ address => address + 7⟩

/-- One register is read from an open line.  The reply comes after 150 milliseconds, and a reply may
take 100. -/
def slow : Query where
  link := { RtuLink.openLine with timeout := millis 100 }
  outstanding := []
  batch := { index := 0, slave := 1, function := 3, start := 0, quantity := 1, points := [] }
  time := 0
  dial := {}
  image := counting
  reply := [(millis 150, .bytes [1, 3, 2, 0, 7, 249, 134])]

/-- The next register is read as soon as the time of the first read is up. -/
def next : Query where
  link := slow.call.link
  outstanding := slow.call.wire
  batch := { slow.batch with start := 1 }
  time := slow.call.now
  dial := {}
  image := counting
  reply := [(millis 160, .bytes [1, 3, 2, 0, 8, 185, 130])]

theorem slow_replied : slow.Replied := by
  refine .of_frame 1 (Pdu.ofWords 3 0 1) ⟨[3, 2, 0, 7], by decide⟩ (fun entry member => ?_)
    ?_ ?_ ?_
  · cases List.mem_singleton.mp member
    exact ⟨_, rfl, List.cons_ne_nil _ _⟩
  · decide +kernel
  · decide +kernel
  · decide +kernel

theorem next_replied : next.Replied := by
  refine .of_frame 1 (Pdu.ofWords 3 1 1) ⟨[3, 2, 0, 8], by decide⟩ (fun entry member => ?_)
    ?_ ?_ ?_
  · cases List.mem_singleton.mp member
    exact ⟨_, rfl, List.cons_ne_nil _ _⟩
  · decide +kernel
  · decide +kernel
  · decide +kernel

/-- Both registers are read. -/
theorem slow_next : Reads slow.link [] [slow, next] :=
  .cons slow_replied (.cons next_replied .nil)

/-- The second read succeeds with the value of the first register, which came late. -/
theorem late_reply_taken :
    Reads slow.link [] [slow, next] ∧ next.call.result = .ok [7] ∧ next.own = [8] ∧
      slow.own = [7] :=
  ⟨slow_next, by decide +kernel, by decide +kernel, by decide +kernel⟩

/-- The first read ends fairly, since nothing is outstanding.  The second one does not give its own
value, so something was outstanding, and the first one was late. -/
theorem next_own_unless_late :
    Reads slow.link [] [slow, next] ∧ [slow, next][1]? = some next ∧ slow.Fair ∧
      next.call.result = .ok [7] ∧ next.outstanding ≠ [] ∧ slow.Late := by
  have taken : next.call.result = .ok [7] := by decide +kernel
  have own : next.own = [8] := by decide +kernel
  obtain ⟨fair, -⟩ := own_unless_late slow_next (i := 0) rfl
  obtain ⟨-, -, given⟩ := own_unless_late slow_next (i := 1) rfl
  rcases given [7] taken with same | ⟨outstanding, j, e, before, there, late⟩
  · rw [own] at same
    cases same
  · obtain rfl : j = 0 := by omega
    cases Option.some.inj there
    exact ⟨slow_next, rfl, fair rfl, taken, outstanding, late⟩

end Query

end Fieldbus
