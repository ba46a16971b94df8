import Fieldbus.Proofs.Link.SerialReads
import Fieldbus.Proofs.Link.Spacing

/-!
# The course of a call

A call on a link ends in one of a few ways, and `ChannelLink.course` says of each one what it makes
of the state of the link.  Either nothing is sent, since the call needs no link, has no request or
does not get the link, or a request is sent and an exchange follows, which fails or is answered, and
the answer is used or refused.

What is kept of a response comes from the bytes that have arrived when the call ends
(`ChannelLink.Keeps`).  Over a network it is the frame of the transaction, behind frames of others.
Over a serial line it may be cut, and zeros stand for what is missing.
-/

namespace Fieldbus

/-! ## Arrivals -/

/-- What is taken from a wire has arrived, and if it is too little, it is all that has. -/
structure Wire.Arrives (wire : Wire) (start deadline : Nanos) (t : Taken) : Prop where
  start_le : start ≤ t.now
  le_deadline : t.now ≤ deadline
  whole : t.ending = .enough → ∀ time, t.now ≤ time →
    wire.inTime time = t.bytes ++ t.rest.inTime time
  cut : t.ending ≠ .enough → t.bytes = wire.inTime t.now

theorem Wire.inTime_chunk {time deadline : Nanos} (soon : time ≤ deadline) (chunk : List UInt8)
    (rest : Wire) :
    Wire.inTime deadline ((time, .bytes chunk) :: rest) = chunk ++ Wire.inTime deadline rest :=
  if_neg (Nat.not_lt.mpr soon)

theorem Wire.takeUntil_arrives (deadline : Nanos) : (now : Nanos) → (count : Nat) → (wire : Wire) →
    now ≤ deadline → Arrives wire now deadline (takeUntil deadline now count wire)
  | now, 0, wire, soon => by
    have nothing : takeUntil deadline now 0 wire = ⟨[], wire, now, .enough⟩ := by
      cases wire <;> rfl
    rw [nothing]
    exact ⟨Nat.le_refl _, soon, fun _ _ _ => rfl, fun few => absurd rfl few⟩
  | now, _ + 1, [], soon => ⟨soon, Nat.le_refl _, (fun enough => by cases enough), fun _ => rfl⟩
  | now, count + 1, (time, arrival) :: rest, soon => by
    unfold takeUntil
    split
    next late =>
      refine ⟨soon, Nat.le_refl _, (fun enough => by cases enough), fun _ => ?_⟩
      cases arrival with
      | bytes chunk => exact (if_pos late).symm
      | closed | failed => rfl
    next early =>
      have next : max now time ≤ deadline := Nat.max_le.mpr ⟨soon, Nat.le_of_not_lt early⟩
      cases arrival with
      | closed | failed =>
        exact ⟨Nat.le_max_left .., next, (fun enough => by cases enough), fun _ => rfl⟩
      | bytes chunk =>
        dsimp only
        split
        next longer =>
          refine ⟨Nat.le_max_left .., next, fun _ D passed => ?_, fun few => absurd rfl few⟩
          have came : time ≤ D := Nat.le_trans (Nat.le_max_right ..) passed
          dsimp only
          rw [inTime_chunk came, inTime_chunk came, ← List.append_assoc, List.take_append_drop]
        next =>
          have later := takeUntil_arrives deadline _ (count + 1 - chunk.length) rest next
          have came : time ≤ _ := Nat.le_trans (Nat.le_max_right now time) later.start_le
          refine ⟨Nat.le_trans (Nat.le_max_left ..) later.start_le, later.le_deadline, ?_, ?_⟩
          · intro enough D passed
            rw [inTime_chunk (Nat.le_trans came passed), later.whole enough D passed,
              List.append_assoc]
          · intro few
            rw [inTime_chunk came, ← later.cut few]

/-! ## Frames over a network -/

namespace Tcp

/-- A frame and nothing else. -/
def IsFrame (bytes : List UInt8) : Prop := frameSize? bytes = .ok (some bytes.length)

/-- The transaction of a frame. -/
def idOf (frame : List UInt8) : UInt16 := wordOf (frame.getD 0 0) (frame.getD 1 0)

variable {transaction : UInt16} {buffer frame : List UInt8}

theorem isFrame_take {size : Nat} (found : frameSize? buffer = .ok (some size)) :
    IsFrame (buffer.take size) := by
  obtain ⟨least, most⟩ := headerSize_le_of_frameSize? found
  have length : (buffer.take size).length = size := List.length_take_of_le most
  unfold frameSize? at found
  rw [if_neg (Nat.not_lt.mpr (Nat.le_trans least most))] at found
  rw [IsFrame, length, frameSize?, length, if_neg (Nat.not_lt.mpr least), List.take_take,
    Nat.min_eq_left least]
  cases parsed : Header.parse (buffer.take headerSize) with
  | error fault =>
    rw [parsed] at found
    cases found
  | ok header =>
    rw [parsed] at found
    simp only [Except.map, Except.ok.injEq] at found ⊢
    split at found
    next => cases found
    next => rw [Option.some.inj found, if_neg (Nat.lt_irrefl size)]

/-- Frames of other transactions. -/
def Foreign (transaction : UInt16) (frames : List (List UInt8)) : Prop :=
  ∀ frame ∈ frames, IsFrame frame ∧ idOf frame ≠ transaction

/-- A frame is the first one of a transaction in what was received. -/
def Found (transaction : UInt16) (received frame : List UInt8) : Prop :=
  ∃ passed behind, received = passed.flatten ++ frame ++ behind ∧ Foreign transaction passed ∧
    IsFrame frame ∧ idOf frame = transaction

theorem Found.behind {passed : List (List UInt8)} {received : List UInt8}
    (foreign : Foreign transaction passed) (h : Found transaction received frame) :
    Found transaction (passed.flatten ++ received) frame := by
  obtain ⟨more, behind, parts, others, whole, own⟩ := h
  refine ⟨passed ++ more, behind, ?_, List.forall_mem_append.mpr ⟨foreign, others⟩, whole, own⟩
  rw [parts, List.flatten_append]
  simp only [List.append_assoc]

/-- What seeking a transaction finds in a buffer. -/
inductive Seeks (transaction : UInt16) (buffer : List UInt8) :
    Except Fault (Option (List UInt8)) × List UInt8 → Prop where
  | malformed {fault : Fault} {rest : List UInt8} : Seeks transaction buffer (.error fault, rest)
  /-- Frames of other transactions, and what is not a whole frame yet. -/
  | passed (passed : List (List UInt8)) {rest : List UInt8} :
    Foreign transaction passed → buffer = passed.flatten ++ rest →
    Seeks transaction buffer (.ok none, rest)
  | found {frame rest : List UInt8} :
    Found transaction buffer frame → Seeks transaction buffer (.ok (some frame), rest)

theorem seek_seeks (transaction : UInt16) (buffer : List UInt8) :
    Seeks transaction buffer (seek transaction buffer) := by
  fun_induction seek transaction buffer with
  | case1 buffer fault => exact .malformed
  | case2 buffer => exact .passed [] nofun rfl
  | case3 buffer size found frame rest own =>
    refine .found ⟨[], rest, ?_, nofun, isFrame_take found, own⟩
    exact (List.take_append_drop size buffer).symm
  | case4 buffer size found frame rest other ih =>
    have foreign : Foreign transaction [frame] :=
      List.forall_mem_singleton.mpr ⟨isFrame_take found, other⟩
    have parts : buffer = [frame].flatten ++ rest := by
      rw [List.flatten_singleton]
      exact (List.take_append_drop size buffer).symm
    generalize seek transaction rest = sought at ih
    cases ih with
    | malformed => exact .malformed
    | passed passed others whole =>
      refine .passed (frame :: passed) (List.forall_mem_cons.mpr
        ⟨foreign frame List.mem_cons_self, others⟩) ?_
      rw [parts, whole, List.flatten_singleton, List.flatten_cons, List.append_assoc]
    | found found => exact .found (parts ▸ found.behind foreign)

/-- What is kept of a response over a network, where `early` came before the request and `arrived`
since. -/
inductive Keeps (transaction : UInt16) (early arrived : List UInt8) (failed : Prop) :
    List UInt8 → Prop where
  | nothing : failed → Keeps transaction early arrived failed []
  | frame {received frame : List UInt8} :
    received <+: arrived → Found transaction (early ++ received) frame →
    Keeps transaction early arrived failed frame

theorem Keeps.imp {early arrived response : List UInt8} {failed failed' : Prop}
    (weaker : failed → failed') (h : Keeps transaction early arrived failed response) :
    Keeps transaction early arrived failed' response := by
  cases h with
  | nothing given => exact .nothing (weaker given)
  | frame received found => exact .frame received found

end Tcp

namespace TcpLink

variable {transaction : UInt16} {late : Fault} {deadline now : Nanos} {buffer frame : List UInt8}
  {wire : Wire}

theorem le_receive (transaction : UInt16) (late : Fault) (buffer : List UInt8) (wire : Wire)
    (soon : now ≤ deadline) :
    now ≤ (receive transaction late deadline now buffer wire).now := by
  induction wire generalizing buffer now with
  | nil =>
    unfold receive
    generalize Tcp.seek transaction buffer = sought
    obtain ⟨found, rest⟩ := sought
    rcases found with fault | _ | frame
    · exact Nat.le_refl _
    · exact soon
    · exact Nat.le_refl _
  | cons entry wire ih =>
    obtain ⟨time, arrival⟩ := entry
    unfold receive
    generalize Tcp.seek transaction buffer = sought
    obtain ⟨found, rest⟩ := sought
    rcases found with fault | _ | frame
    · exact Nat.le_refl _
    · dsimp only
      split
      next => exact soon
      next early =>
        have next : max now time ≤ deadline := Nat.max_le.mpr ⟨soon, Nat.le_of_not_lt early⟩
        cases arrival with
        | bytes chunk => exact Nat.le_trans (Nat.le_max_left ..) (ih _ next)
        | closed | failed => exact Nat.le_max_left ..
    · exact Nat.le_refl _

/-- A response is the first frame of its transaction in what had been received by the end. -/
theorem receive_found (soon : now ≤ deadline)
    (ok : (receive transaction late deadline now buffer wire).result = .ok frame) :
    ∃ received,
      received <+: wire.inTime (receive transaction late deadline now buffer wire).now ∧
        Tcp.Found transaction (buffer ++ received) frame := by
  induction wire generalizing buffer now with
  | nil =>
    have seeks := Tcp.seek_seeks transaction buffer
    unfold receive at ok ⊢
    generalize Tcp.seek transaction buffer = sought at seeks ok
    cases seeks with
    | malformed | passed => cases ok
    | found found =>
      cases ok
      exact ⟨[], List.nil_prefix, by rwa [List.append_nil]⟩
  | cons entry wire ih =>
    obtain ⟨time, arrival⟩ := entry
    have seeks := Tcp.seek_seeks transaction buffer
    unfold receive at ok ⊢
    generalize Tcp.seek transaction buffer = sought at seeks ok ⊢
    cases seeks with
    | malformed => cases ok
    | found found =>
      cases ok
      exact ⟨[], List.nil_prefix, by rwa [List.append_nil]⟩
    | @passed passed rest foreign parts =>
      dsimp only at ok ⊢
      split at ok
      next => cases ok
      next early =>
        rw [if_neg early]
        have next : max now time ≤ deadline := Nat.max_le.mpr ⟨soon, Nat.le_of_not_lt early⟩
        cases arrival with
        | closed | failed => cases ok
        | bytes chunk =>
          obtain ⟨received, began, found⟩ := ih next ok
          have came := Nat.le_trans (Nat.le_max_right ..)
            (le_receive transaction late (rest ++ chunk) wire next)
          refine ⟨chunk ++ received, ?_, ?_⟩
          · rw [Wire.inTime_chunk came]
            exact (List.prefix_append_right_inj chunk).mpr began
          · rw [parts, List.append_assoc, ← List.append_assoc rest]
            exact found.behind foreign

end TcpLink

/-! ## Responses over a serial line -/

/-- What is kept of a response over a serial line, where `arrived` came since the request.  Zeros
stand for what is missing. -/
inductive Rtu.Keeps (arrived : List UInt8) (failed : Prop) : List UInt8 → Prop where
  | nothing : failed → Keeps arrived failed []
  | filled {received : List UInt8} {missing : Nat} :
    3 ≤ received.length → received <+: arrived → (0 < missing → received = arrived ∧ failed) →
    Keeps arrived failed (received ++ List.replicate missing 0)

theorem Rtu.Keeps.imp {arrived response : List UInt8} {failed failed' : Prop}
    (weaker : failed → failed') (h : Keeps arrived failed response) :
    Keeps arrived failed' response := by
  cases h with
  | nothing given => exact .nothing (weaker given)
  | filled head began cut => exact .filled head began fun some => (cut some).imp_right weaker

namespace RtuLink

variable {deadline now : Nanos}

theorem receive_keeps (slave : UInt8) (late : Fault) (soon : now ≤ deadline) (wire : Wire) :
    Rtu.Keeps (wire.inTime (receive slave late deadline now wire).now)
      (∃ fault, (receive slave late deadline now wire).result = .error fault)
      (receive slave late deadline now wire).response := by
  have came := Wire.takeUntil_arrives deadline now 3 wire soon
  have three := Wire.length_takeUntil deadline now 3 wire
  unfold receive
  generalize Wire.takeUntil deadline now 3 wire = head at came three ⊢
  obtain ⟨first, rest, time, ending⟩ := head
  cases ending with
  | late => exact .nothing ⟨_, rfl⟩
  | broken fault => exact .nothing ⟨_, rfl⟩
  | enough =>
    have length : first.length = 3 := three rfl
    dsimp only
    cases announced : announcedSize first with
    | error fault => exact .nothing ⟨_, rfl⟩
    | ok size =>
      obtain ⟨least, -⟩ := announcedSize_bounds announced
      have behind := Wire.takeUntil_arrives deadline time (size - 3) rest came.le_deadline
      have enough := Wire.length_takeUntil deadline time (size - 3) rest
      dsimp only
      generalize Wire.takeUntil deadline time (size - 3) rest = body at behind enough ⊢
      obtain ⟨later, left, ended, ending⟩ := body
      have arrived : wire.inTime ended = first ++ rest.inTime ended :=
        came.whole rfl ended behind.start_le
      have head : 3 ≤ (first ++ later).length := by
        rw [List.length_append, length]
        exact Nat.le_add_right ..
      cases ending with
      | late | broken =>
        have cut : later = rest.inTime ended := behind.cut nofun
        have all : first ++ later = wire.inTime ended := by
          rw [arrived, cut]
        exact .filled head (all ▸ List.prefix_rfl) fun _ => ⟨all, _, rfl⟩
      | enough =>
        have complete : size - (first ++ later).length = 0 := by
          have body : later.length = size - 3 := enough rfl
          rw [List.length_append]
          omega
        refine .filled head ?_ fun missing => absurd (complete ▸ missing) (Nat.lt_irrefl 0)
        rw [arrived, behind.whole rfl ended (Nat.le_refl _), ← List.append_assoc]
        exact List.prefix_append ..

theorem transact_keeps (l : RtuLink) (slave : UInt8) (c : Conduct) (now : Nanos) :
    Rtu.Keeps (c.wire.inTime (l.transact slave c now).now)
      (∃ fault, (l.transact slave c now).result = .error fault)
      (l.transact slave c now).response := by
  unfold transact
  cases c.sending with
  | whole => exact receive_keeps slave _ (Nat.le_add_right ..) c.wire
  | late taken => exact .nothing ⟨_, rfl⟩
  | failed taken condition text => exact .nothing ⟨_, rfl⟩

end RtuLink

/-! ## States -/

namespace LinkState

/-- What asking for the link gives, by whether an attempt would be refused. -/
inductive Asked (s : LinkState) (now : Nanos) (refused : Prop) :
    Except Fault Unit → LinkState → Prop where
  | up : s.gate now = .up → Asked s now refused (.ok ()) s
  | held {remaining : Nanos} {fault : Fault} :
    s.gate now = .held remaining → Asked s now refused (.error fault) s
  | made : s.gate now = .free → ¬ refused → Asked s now refused (.ok ()) s.made
  | missed {time : Nanos} {fault : Fault} :
    s.gate now = .free → refused → Asked s now refused (.error fault) (s.missed time)

/-- What an exchange makes of a state, by how it ends. -/
inductive Exchanged (s : LinkState) (frame response : List UInt8) :
    Except Fault Pdu → LinkState → Prop where
  | answered {pdu : Pdu} :
    Exchanged s frame response (.ok pdu) ((s.begun frame).answered response)
  /-- It may take the link down. -/
  | failed {fault : Fault} {isUp : Bool} :
    Exchanged s frame response (.error fault)
      { (s.begun frame).blamed fault with frames := ⟨frame, response⟩, isUp }

end LinkState

namespace TcpLink

variable (l : TcpLink) (c : Conduct) (now : Nanos)

theorem connect_asked :
    l.state.Asked now (l.connectTimeout < c.dial.duration ∨ c.dial.refusal.isSome)
      (l.connect c now).result (l.connect c now).link.state := by
  unfold connect
  split
  next gate => exact .up gate
  next remaining gate => exact .held gate
  next gate =>
    split
    next late => exact .missed gate (.inl late)
    next soon =>
      dsimp only
      split
      next none => exact .made gate (by simp [none, soon])
      next text some => exact .missed gate (by simp [some])

theorem ids_connect : (l.connect c now).link.ids = l.ids := by
  unfold connect
  split
  next => rfl
  next => rfl
  next =>
    split
    next => rfl
    next =>
      dsimp only
      split
      next => rfl
      next => rfl

theorem transact_found {transaction : UInt16} {frame : List UInt8}
    (ok : (l.transact transaction c now).result = .ok frame) :
    ∃ received, received <+: c.wire.inTime (l.transact transaction c now).now ∧
      Tcp.Found transaction (l.buffer ++ received) frame := by
  unfold transact at ok ⊢
  cases sending : c.sending with
  | whole =>
    simp only [sending] at ok ⊢
    exact receive_found (Nat.le_add_right ..) ok
  | late taken | failed taken condition text =>
    rw [sending] at ok
    cases ok

theorem settle_failed (fault : Fault) (response : List UInt8) : ∃ isUp,
    (l.settle (.error fault) response).state = { l.state.blamed fault with isUp } := by
  unfold settle
  dsimp only
  split
  next => exact ⟨false, rfl⟩
  next => exact ⟨l.state.isUp, rfl⟩

theorem exchange_exchanged (made : (l.connect c now).result = .ok ()) (unit : UInt8) (pdu : Pdu) :
    ∃ response,
      (l.connect c now).link.state.Exchanged (Tcp.encode l.ids.next unit pdu) response
        (l.exchange unit pdu c now).result (l.exchange unit pdu c now).link.state ∧
      Tcp.Keeps l.ids.next (l.connect c now).link.buffer
        (c.wire.inTime (l.exchange unit pdu c now).now)
        (∃ fault, (l.exchange unit pdu c now).result = .error fault) response := by
  have ids := l.ids_connect c now
  unfold exchange
  dsimp only
  generalize l.connect c now = reached at made ids ⊢
  obtain ⟨result, link, wire, time, sent⟩ := reached
  obtain rfl : result = .ok () := made
  dsimp only [Tcp.TransactionIds.take] at ids ⊢
  rw [ids]
  have found := @transact_found
    { link with ids := ⟨l.ids.next + 1⟩, state := link.state.begun (Tcp.encode l.ids.next unit pdu) }
    c time l.ids.next
  generalize transact _ l.ids.next c time = r at found ⊢
  obtain ⟨received, buffer, wire, ended⟩ := r
  have failed (l' : TcpLink) (fault : Fault) (kept : List UInt8)
      (begun : l'.state = link.state.begun (Tcp.encode l.ids.next unit pdu)) :
      link.state.Exchanged (Tcp.encode l.ids.next unit pdu) [] (.error fault)
        (l'.settle (.error fault) kept).state := by
    obtain ⟨isUp, state⟩ := l'.settle_failed fault kept
    rw [state, begun]
    exact .failed
  cases received with
  | error fault => exact ⟨[], failed _ fault _ rfl, .nothing ⟨fault, rfl⟩⟩
  | ok frame =>
    obtain ⟨received, began, found⟩ := found rfl
    dsimp only [bind, Except.bind]
    cases Pdu.ofBytes (frame.drop Tcp.headerSize) with
    | error fault => exact ⟨[], failed _ fault _ rfl, .nothing ⟨fault, rfl⟩⟩
    | ok data => exact ⟨frame, .answered, .frame began found⟩

end TcpLink

namespace RtuLink

variable (l : RtuLink) (c : Conduct) (now : Nanos)

theorem connect_asked :
    l.state.Asked now (c.dial.refusal.isSome) (l.connect c now).result
      (l.connect c now).link.state := by
  unfold connect
  split
  next gate => exact .up gate
  next remaining gate => exact .held gate
  next gate =>
    dsimp only
    split
    next none => exact .made gate (by simp [none])
    next text some => exact .missed gate (by simp [some])

theorem exchange_exchanged (made : (l.connect c now).result = .ok ()) (slave : UInt8) (pdu : Pdu) :
    ∃ response,
      (l.connect c now).link.state.Exchanged (Rtu.encode slave pdu) response
        (l.exchange slave pdu c now).result (l.exchange slave pdu c now).link.state ∧
      Rtu.Keeps (c.wire.inTime (l.exchange slave pdu c now).now)
        (∃ fault, (l.exchange slave pdu c now).result = .error fault) response := by
  unfold exchange
  dsimp only
  generalize l.connect c now = reached at made ⊢
  obtain ⟨result, link, wire, time, sent⟩ := reached
  obtain rfl : result = .ok () := made
  dsimp only
  have keeps := link.transact_keeps slave c (link.readyAt time)
  generalize link.transact slave c (link.readyAt time) = r at keeps ⊢
  obtain ⟨result, response, wire, ended⟩ := r
  refine ⟨response, ?_, keeps⟩
  cases result with
  | ok data => exact .answered
  | error fault =>
    unfold settle
    dsimp only
    split
    next => exact .failed
    next => exact .failed

end RtuLink

/-! ## Calls -/

namespace ChannelLink

/-- The frame of a data unit that is sent next. -/
def frame (slave : UInt8) (pdu : Pdu) : ChannelLink → List UInt8
  | tcp l => Tcp.encode l.ids.next slave pdu
  | rtu _ => Rtu.encode slave pdu

def exchange (l : ChannelLink) (slave : UInt8) (pdu : Pdu) (c : Conduct) (now : Nanos) :
    Called ChannelLink Pdu :=
  match l with
  | tcp l => lift tcp (l.exchange slave pdu c now)
  | rtu l => lift rtu (l.exchange slave pdu c now)

def blamed (l : ChannelLink) (fault : Fault) : ChannelLink :=
  match l with
  | tcp l => tcp (l.blamed fault)
  | rtu l => rtu (l.blamed fault)

/-- Whether an attempt to make the link would be refused. -/
def Refuses (d : Dial) : ChannelLink → Prop
  | tcp l => l.connectTimeout < d.duration ∨ d.refusal.isSome
  | rtu _ => d.refusal.isSome

end ChannelLink

/-- The frame that a call has to send, if there is one. -/
def LinkCall.frame? (l : ChannelLink) : LinkCall → Option (List UInt8)
  | read batch => batch.request.toOption.map fun pdu => l.frame batch.slave pdu
  | write point words =>
    (WriteRequest.forPoint point words).toOption.map fun r => l.frame point.slave r.pdu
  | connect | close => none

theorem LinkCall.frame?_of_unneeded {call : LinkCall} (unneeded : call.needsLink = false)
    (l : ChannelLink) : call.frame? l = none := by
  cases call with
  | connect => cases unneeded
  | close => rfl
  | read batch =>
    cases request : batch.request with
    | error fault => simp [frame?, request, Except.toOption]
    | ok pdu => simp [needsLink, request, Except.isOk, Except.toBool] at unneeded
  | write point words =>
    cases request : WriteRequest.forPoint point words with
    | error fault => simp [frame?, request, Except.toOption]
    | ok pdu => simp [needsLink, request, Except.isOk, Except.toBool] at unneeded

theorem Called.parsed_unvalued {L α : Type} (e : Called L Pdu) (blame : L → Fault → L)
    (parse : Pdu → Except Fault α) :
    (e.parsed blame parse).unvalued = e.parsed blame fun p => (parse p).map fun _ => () := by
  unfold parsed
  cases e.result with
  | error fault => rfl
  | ok response =>
    dsimp only
    cases parse response with
    | error fault => rfl
    | ok value => rfl

namespace ChannelLink

variable {l : ChannelLink} {t : LinkTurn}

theorem state_blamed (l : ChannelLink) (fault : Fault) :
    (l.blamed fault).state = l.state.blamed fault := by
  cases l with
  | tcp l => rfl
  | rtu l => rfl

theorem parsed_lift {L α : Type} {wrap : L → ChannelLink} {blame : L → Fault → L}
    (same : ∀ l fault, (wrap l).blamed fault = wrap (blame l fault)) (e : Called L Pdu)
    (parse : Pdu → Except Fault α) :
    lift wrap (e.parsed blame parse) = (lift wrap e).parsed ChannelLink.blamed parse := by
  unfold Called.parsed lift
  dsimp only
  cases e.result with
  | error fault => rfl
  | ok response =>
    dsimp only
    cases parse response with
    | error fault =>
      dsimp only
      rw [same]
    | ok value => rfl

/-- A call with a frame to send is an exchange whose response is parsed. -/
theorem turn_eq_exchange {frame : List UInt8} (sends : t.call.frame? l = some frame) :
    ∃ slave pdu parse, frame = l.frame slave pdu ∧
      l.turn t = (l.exchange slave pdu t.conduct t.now).parsed blamed parse := by
  obtain ⟨call, conduct, now⟩ := t
  cases call with
  | connect | close => cases sends
  | read batch =>
    simp only [LinkCall.frame?] at sends
    cases request : batch.request with
    | error fault =>
      rw [request] at sends
      cases sends
    | ok pdu =>
      rw [request] at sends
      cases sends
      refine ⟨batch.slave, pdu, _, rfl, Eq.trans ?_ (Called.parsed_unvalued _ _ batch.parse)⟩
      cases l with
      | tcp l =>
        simp only [turn, read, TcpLink.read, request, exchange]
        rw [parsed_lift fun _ _ => rfl]
      | rtu l =>
        simp only [turn, read, RtuLink.read, request, exchange]
        rw [parsed_lift fun _ _ => rfl]
  | write point words =>
    simp only [LinkCall.frame?] at sends
    cases made : WriteRequest.forPoint point words with
    | error fault =>
      rw [made] at sends
      cases sends
    | ok request =>
      rw [made] at sends
      cases sends
      refine ⟨point.slave, request.pdu, request.check, rfl, ?_⟩
      cases l with
      | tcp l =>
        simp only [turn, write, TcpLink.write, made, exchange]
        exact parsed_lift (fun _ _ => rfl) ..
      | rtu l =>
        simp only [turn, write, RtuLink.write, made, exchange]
        exact parsed_lift (fun _ _ => rfl) ..

/-- What asking for the link gives. -/
theorem connect_asked (l : ChannelLink) (c : Conduct) (now : Nanos) :
    l.state.Asked now (l.Refuses c.dial) (l.connect c now).result (l.connect c now).link.state := by
  cases l with
  | tcp l => exact l.connect_asked c now
  | rtu l => exact l.connect_asked c now

/-- A link that is not to be had ends an exchange. -/
theorem exchange_unreached {c : Conduct} {now : Nanos} {fault : Fault}
    (failed : (l.connect c now).result = .error fault) (slave : UInt8) (pdu : Pdu) :
    (l.exchange slave pdu c now).result = .error fault ∧
      (l.exchange slave pdu c now).link = (l.connect c now).link := by
  cases l with
  | tcp l =>
    have failed : (l.connect c now).result = .error fault := failed
    simp only [exchange, lift, TcpLink.exchange, failed]
    exact ⟨trivial, rfl⟩
  | rtu l =>
    have failed : (l.connect c now).result = .error fault := failed
    simp only [exchange, lift, RtuLink.exchange, failed]
    exact ⟨trivial, rfl⟩

/-- What a call keeps of the response to its request. -/
def Keeps (l : ChannelLink) (t : LinkTurn) (response : List UInt8) : Prop :=
  let arrived := t.conduct.wire.inTime (l.turn t).now
  let failed := ∃ fault, (l.turn t).result = .error fault
  match l with
  | tcp l =>
    Tcp.Keeps l.ids.next (l.connect t.conduct t.now).link.buffer arrived failed response
  | rtu _ => Rtu.Keeps arrived failed response

/-- How a call ends, and what it makes of the state of the link. -/
inductive Course (l : ChannelLink) (t : LinkTurn) : Except Fault Unit → LinkState → Prop where
  | closed {isUp : Bool} : t.call = .close → Course l t (.ok ()) { l.state with isUp }
  /-- There is no request for it. -/
  | unmade {fault : Fault} :
    t.call.needsLink = false → t.call ≠ .close → Course l t (.error fault) l.state
  | connected :
    t.call = .connect →
    Course l t (l.connect t.conduct t.now).result (l.connect t.conduct t.now).link.state
  /-- The link is not to be had. -/
  | unreached {frame : List UInt8} {fault : Fault} :
    t.call.frame? l = some frame → (l.connect t.conduct t.now).result = .error fault →
    Course l t (.error fault) (l.connect t.conduct t.now).link.state
  | failed {frame response : List UInt8} {fault : Fault} {isUp : Bool} :
    t.call.frame? l = some frame → (l.connect t.conduct t.now).result = .ok () →
    l.Keeps t response →
    Course l t (.error fault)
      { ((l.connect t.conduct t.now).link.state.begun frame).blamed fault with
        frames := ⟨frame, response⟩, isUp }
  /-- The answer is not one to the request. -/
  | refused {frame response : List UInt8} {fault : Fault} :
    t.call.frame? l = some frame → (l.connect t.conduct t.now).result = .ok () →
    l.Keeps t response →
    Course l t (.error fault)
      ((((l.connect t.conduct t.now).link.state.begun frame).answered response).blamed fault)
  | answered {frame response : List UInt8} :
    t.call.frame? l = some frame → (l.connect t.conduct t.now).result = .ok () →
    l.Keeps t response →
    Course l t (.ok ())
      (((l.connect t.conduct t.now).link.state.begun frame).answered response)

/-- An exchange over a link that is to be had. -/
theorem exchange_exchanged {c : Conduct} {now : Nanos} (made : (l.connect c now).result = .ok ())
    {slave : UInt8} {pdu : Pdu} {parse : Pdu → Except Fault Unit} {call : LinkCall}
    (turn : l.turn ⟨call, c, now⟩ = (l.exchange slave pdu c now).parsed blamed parse) :
    ∃ response,
      (l.connect c now).link.state.Exchanged (l.frame slave pdu) response
        (l.exchange slave pdu c now).result (l.exchange slave pdu c now).link.state ∧
      l.Keeps ⟨call, c, now⟩ response := by
  obtain ⟨-, ended, -, result⟩ := Called.parsed_eq (l.exchange slave pdu c now) blamed parse
  have failed (h : ∃ fault, (l.exchange slave pdu c now).result = .error fault) :
      ∃ fault, (l.turn ⟨call, c, now⟩).result = .error fault := by
    obtain ⟨fault, failed⟩ := h
    exact ⟨fault, by rw [turn, result, failed]; rfl⟩
  unfold Keeps
  dsimp only
  rw [turn, ended, ← turn]
  cases l with
  | tcp l =>
    obtain ⟨response, exchanged, keeps⟩ := l.exchange_exchanged c now made slave pdu
    exact ⟨response, exchanged, keeps.imp failed⟩
  | rtu l =>
    obtain ⟨response, exchanged, keeps⟩ := l.exchange_exchanged c now made slave pdu
    exact ⟨response, exchanged, keeps.imp failed⟩

theorem course_of_frame {frame : List UInt8} (sends : t.call.frame? l = some frame) :
    Course l t (l.turn t).result (l.turn t).link.state := by
  obtain ⟨slave, pdu, parse, rfl, turn⟩ := turn_eq_exchange sends
  obtain ⟨call, c, now⟩ := t
  dsimp only at turn sends
  cases reached : (l.connect c now).result with
  | error fault =>
    obtain ⟨result, link⟩ := exchange_unreached reached slave pdu
    rw [turn, Called.parsed, result]
    dsimp only
    rw [link]
    exact .unreached sends reached
  | ok _ =>
    obtain ⟨response, exchanged, keeps⟩ := exchange_exchanged reached turn
    rw [turn, Called.parsed]
    generalize l.exchange slave pdu c now = e at exchanged ⊢
    obtain ⟨result, link, wire, ended, sent⟩ := e
    dsimp only at exchanged ⊢
    generalize after : link.state = state at exchanged
    cases exchanged with
    | failed =>
      dsimp only
      rw [after]
      exact .failed sends reached keeps
    | answered =>
      dsimp only
      split
      next =>
        rw [after]
        exact .answered sends reached keeps
      next fault _ =>
        rw [state_blamed, after]
        exact .refused sends reached keeps

theorem course (l : ChannelLink) (t : LinkTurn) :
    Course l t (l.turn t).result (l.turn t).link.state := by
  cases sends : t.call.frame? l with
  | some frame => exact course_of_frame sends
  | none =>
    obtain ⟨call, c, now⟩ := t
    cases call with
    | connect => exact .connected rfl
    | close =>
      cases l with
      | rtu l => exact .closed rfl
      | tcp l =>
        simp only [turn, close, TcpLink.close]
        split
        next => exact .closed rfl
        next => exact .closed rfl
    | read batch =>
      cases request : batch.request with
      | ok pdu => simp [LinkCall.frame?, request, Except.toOption] at sends
      | error fault =>
        have aside : (LinkCall.read batch).needsLink = false := by
          simp [LinkCall.needsLink, request, Except.isOk, Except.toBool]
        cases l with
        | tcp l =>
          simp only [turn, read, TcpLink.read, request]
          exact .unmade aside fun closes => by cases closes
        | rtu l =>
          simp only [turn, read, RtuLink.read, request]
          exact .unmade aside fun closes => by cases closes
    | write point words =>
      cases request : WriteRequest.forPoint point words with
      | ok pdu => simp [LinkCall.frame?, request, Except.toOption] at sends
      | error fault =>
        have aside : (LinkCall.write point words).needsLink = false := by
          simp [LinkCall.needsLink, request, Except.isOk, Except.toBool]
        cases l with
        | tcp l =>
          simp only [turn, write, TcpLink.write, request]
          exact .unmade aside fun closes => by cases closes
        | rtu l =>
          simp only [turn, write, RtuLink.write, request]
          exact .unmade aside fun closes => by cases closes

end ChannelLink

end Fieldbus
