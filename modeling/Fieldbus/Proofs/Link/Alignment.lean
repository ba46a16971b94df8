import Mathlib.Data.List.Nodup
import Fieldbus.Proofs.Link.Reception

/-!
# Alignment of network connections

A connection carries one exchange after another.  The other side sends whole replies, each with
the transaction of its request, but they arrive in chunks, late, and behind stale ones.

`Session.Aligned` is the invariant between exchanges.  What was received is whole replies, which
are consumed, and the buffer, which begins a reply.  An exchange keeps it (`Aligned.after`), so it
holds all along a connection.

Transactions are counted in 16 bits.  The other side answers in time, but a reply that has come is
left unread as long as no request goes out as a whole.  If that lasts for a whole round of
transactions, the reply is `Overdue`, and it is taken for the reply to the request that has its
transaction now (`overdue_reply_taken`).  `exchange_in_step` says that no reply is taken for the
reply to another request otherwise.
-/

namespace Fieldbus

open Tcp (Reply stream transactionOf CutFrame)

/-! ## Conversations -/

/-- One exchange as both sides see it: the request, what becomes of it, and what the other side
sends meanwhile. -/
structure Turn where
  unit : UInt8
  pdu : Pdu
  sending : Sending := .whole
  arrivals : Wire := []
  now : Nanos

/-- A connection with the bytes under way, and with what happened on it: the number of requests
and all bytes that the other side sent. -/
structure Session where
  link : TcpLink
  wire : Wire := []
  requests : Nat := 0
  sent : List UInt8 := []

namespace Session

/-- The exchange of a turn. -/
def call (s : Session) (t : Turn) : Called TcpLink Pdu :=
  s.link.exchange t.unit t.pdu { sending := t.sending, wire := s.wire ++ t.arrivals } t.now

def after (s : Session) (t : Turn) : Session :=
  { link := (s.call t).link
    wire := (s.call t).wire
    requests := s.requests + 1
    sent := s.sent ++ t.arrivals.bytes }

/-- The bytes received so far. -/
def received (s : Session) : List UInt8 := s.sent.take (s.sent.length - s.wire.bytes.length)

/-- The bytes that a turn receives before its time is up and before the link breaks. -/
def delivered (s : Session) (t : Turn) : List UInt8 :=
  match t.sending with
  | .whole => Wire.inTime (t.now + s.link.timeout) (s.wire ++ t.arrivals)
  | _ => []

/-- Whether the link itself breaks in a turn. -/
def Breaks (s : Session) (t : Turn) : Prop :=
  Wire.Breaks (t.now + s.link.timeout) (s.wire ++ t.arrivals) ∨
    ∃ taken condition text, t.sending = .failed taken condition text

/-- How the other side answers: what it has sent begins the stream of its replies.  A reply that
begins to come is to a request that was made, and less than 65536 requests late. -/
structure Answers (first : UInt16) (replies : List Reply) (s : Session) (t : Turn) : Prop where
  begins : s.sent ++ t.arrivals.bytes <+: stream first replies
  timely : ∀ earlier r later, replies = earlier ++ r :: later →
    s.sent.length ≤ (stream first earlier).length →
    (stream first earlier).length < (s.sent ++ t.arrivals.bytes).length →
    r.request ≤ s.requests ∧ s.requests < r.request + 65536

/-- A reply that began to come before the next request, and is not consumed, although its
transaction has come round since then. -/
structure Overdue (first : UInt16) (replies : List Reply) (s : Session) (r : Reply) : Prop where
  unread : ∃ earlier later, replies = earlier ++ r :: later ∧
    (stream first earlier).length < s.sent.length ∧
    s.received.length - s.link.buffer.length < (stream first (earlier ++ [r])).length
  again : ∃ rounds, 0 < rounds ∧ s.requests = r.request + 65536 * rounds

/-- What holds between turns.  While the link is up, whole replies are consumed and the rest is
in the buffer or under way. -/
structure Aligned (first : UInt16) (replies : List Reply) (s : Session) : Prop where
  next : s.link.ids.next = transactionOf first s.requests
  begins : s.sent <+: stream first replies
  answered : ∀ earlier r later, replies = earlier ++ r :: later →
    (stream first earlier).length < s.sent.length → r.request < s.requests
  whole : s.link.state.isUp = true → ∃ used left, replies = used ++ left ∧
    s.sent = stream first used ++ s.link.buffer ++ s.wire.bytes
  emptied : s.link.state.isUp = false → s.link.buffer = []

/-- No reply to the transaction is among the bytes delivered in a turn, if there were any. -/
def Missed (first : UInt16) (left : List Reply) (s : Session) (t : Turn) : Prop :=
  t.sending = .whole → ∃ skipped later rest, left = skipped ++ later ∧
    s.link.buffer ++ s.delivered t = stream first skipped ++ rest ∧
    (∀ r ∈ skipped, transactionOf first r.request ≠ s.link.ids.next) ∧
    CutFrame first later rest

/-- How the exchange of a turn ends, where `left` are the replies that are not consumed. -/
inductive Concluded (first : UInt16) (left : List Reply) (s : Session) (t : Turn) : Prop where
  /-- The reply came. -/
  | answered {skipped later : List Reply} {r : Reply} :
    left = skipped ++ r :: later →
    s.link.buffer ++ Wire.bytes (s.wire ++ t.arrivals) =
      stream first (skipped ++ [r]) ++ (s.call t).link.buffer ++ (s.call t).wire.bytes →
    transactionOf first r.request = s.link.ids.next →
    (s.call t).result = .ok r.pdu →
    (s.call t).link.state.isUp = true →
    Concluded first left s t
  /-- The reply did not come in time. -/
  | late {skipped later : List Reply} {fault : Fault} :
    left = skipped ++ later →
    s.link.buffer ++ Wire.bytes (s.wire ++ t.arrivals) =
      stream first skipped ++ (s.call t).link.buffer ++ (s.call t).wire.bytes →
    s.Missed first left t →
    (s.call t).result = .error fault →
    fault.isTimeout = true →
    (s.call t).link.state.isUp = true →
    Concluded first left s t
  /-- The link broke. -/
  | broken {fault : Fault} :
    s.Breaks t →
    s.Missed first left t →
    (s.call t).result = .error fault →
    fault.isConnection = true →
    (s.call t).link.state.isUp = false →
    (s.call t).link.buffer = [] →
    Concluded first left s t

variable {first : UInt16} {replies used left : List Reply} {s : Session} {t : Turn}

theorem concluded (up : s.link.state.isUp = true)
    (begins : s.link.buffer ++ Wire.bytes (s.wire ++ t.arrivals) <+: stream first left) :
    Concluded first left s t := by
  have called := TcpLink.exchange_of_isUp up t.unit t.pdu
    { sending := t.sending, wire := s.wire ++ t.arrivals } t.now
  rw [← call] at called
  cases sending : t.sending with
  | late taken =>
    simp only [sending, TcpLink.transact, bind, Except.bind] at called
    rw [TcpLink.settle_kept _ rfl] at called
    refine .late (List.nil_append left).symm ?_ ?_ (congrArg Called.result called) rfl ?_
    · simp [called]
    · simp [Missed, sending]
    · rw [called]
      exact up
  | failed taken condition text =>
    have connection := condition.isConnection text
    have fatal : TcpLink.isFatal (.ofSystem condition text) = true := by
      simp [TcpLink.isFatal, connection]
    simp only [sending, TcpLink.transact, bind, Except.bind] at called
    rw [TcpLink.settle_dropped _ fatal] at called
    refine .broken (.inr ⟨taken, condition, text, sending⟩) ?_ (congrArg Called.result called)
      connection ?_ ?_
    · simp [Missed, sending]
    · simp [called, LinkState.dropped]
    · simp [called]
  | whole =>
    have delivered : s.delivered t =
        Wire.inTime (t.now + s.link.timeout) (s.wire ++ t.arrivals) := by
      simp [delivered, sending]
    simp only [sending, TcpLink.transact] at called
    generalize limit : Fault.timeout (wholeMillis s.link.timeout)
      s!"transaction {s.link.ids.next} to {s.link.address}" = fault at called
    have timeout : fault.isTimeout = true := by rw [← limit]; rfl
    have mild : TcpLink.isFatal fault = false := by rw [← limit]; rfl
    have awaited : TcpLink.Awaited first s.link.ids.next fault (t.now + s.link.timeout) left
        s.link.buffer (s.wire ++ t.arrivals)
        (TcpLink.receive s.link.ids.next fault (t.now + s.link.timeout) t.now s.link.buffer
          (s.wire ++ t.arrivals)) := TcpLink.receive_awaited begins
    generalize TcpLink.receive s.link.ids.next fault (t.now + s.link.timeout) t.now
      s.link.buffer (s.wire ++ t.arrivals) = received at awaited called
    cases awaited with
    | answered whole bytes own =>
      simp only [bind, Except.bind, TcpLink.ofBytes_frame, TcpLink.settle] at called
      refine .answered whole ?_ own (congrArg Called.result called) ?_
      · rw [called]
        exact bytes
      · rw [called]
        exact up
    | late whole bytes came foreign cut =>
      simp only [bind, Except.bind, TcpLink.settle_kept _ mild] at called
      refine .late whole ?_ ?_ (congrArg Called.result called) timeout ?_
      · rw [called]
        exact bytes
      · exact fun _ => ⟨_, _, _, whole, delivered ▸ came, foreign, cut⟩
      · rw [called]
        exact up
    | @broken skipped later rest wire now fault whole connection breaks came foreign cut =>
      have fatal : TcpLink.isFatal fault = true := by simp [TcpLink.isFatal, connection]
      simp only [bind, Except.bind, TcpLink.settle_dropped _ fatal] at called
      refine .broken (.inl breaks) ?_ (congrArg Called.result called) connection ?_ ?_
      · exact fun _ => ⟨_, _, _, whole, delivered ▸ came, foreign, cut⟩
      · rw [called]
        rfl
      · rw [called]

namespace Concluded

/-- An exchange that fails was too late or lost its link.  No frame is malformed. -/
theorem fault {fault : Fault} (h : Concluded first left s t)
    (failed : (s.call t).result = .error fault) :
    fault.isFrame = false ∧
      (fault.isTimeout = true ∨ fault.isConnection = true ∧ s.Breaks t) := by
  cases h with
  | answered _ _ _ result =>
    rw [result] at failed
    cases failed
  | late _ _ _ result timeout =>
    rw [result] at failed
    cases failed
    cases fault with
    | timeout _ _ => exact ⟨rfl, .inl rfl⟩
    | _ => cases timeout
  | broken breaks _ result connection =>
    rw [result] at failed
    cases failed
    cases fault with
    | connection _ | io _ | backoff _ => exact ⟨rfl, .inr ⟨rfl, breaks⟩⟩
    | _ => cases connection

/-- A link that is down afterwards broke, and nothing is left in its buffer. -/
theorem emptied_of_down (h : Concluded first left s t) (down : (s.call t).link.state.isUp = false) :
    (s.call t).link.buffer = [] ∧ s.Breaks t := by
  cases h with
  | answered _ _ _ _ up =>
    rw [up] at down
    cases down
  | late _ _ _ _ _ up =>
    rw [up] at down
    cases down
  | broken breaks _ _ _ _ emptied => exact ⟨emptied, breaks⟩

end Concluded

/-! ## The session after a turn -/

@[simp] theorem after_link (s : Session) (t : Turn) : (s.after t).link = (s.call t).link := rfl

@[simp] theorem after_wire (s : Session) (t : Turn) : (s.after t).wire = (s.call t).wire := rfl

@[simp] theorem after_requests (s : Session) (t : Turn) :
    (s.after t).requests = s.requests + 1 := rfl

@[simp] theorem after_sent (s : Session) (t : Turn) :
    (s.after t).sent = s.sent ++ t.arrivals.bytes := rfl

theorem received_eq {bytes : List UInt8} (h : s.sent = bytes ++ s.wire.bytes) :
    s.received = bytes := by
  rw [received, h, List.length_append, Nat.add_sub_cancel]
  exact List.take_left

theorem next_call (up : s.link.state.isUp = true) (t : Turn) :
    (s.call t).link.ids.next = s.link.ids.next + 1 := by
  have settled (l : TcpLink) (result : Except Fault Pdu) (response : List UInt8) :
      (l.settle result response).ids = l.ids := by
    cases result with
    | ok _ => rfl
    | error fault =>
      rw [TcpLink.settle]
      split
      · rfl
      · rfl
  rw [call, TcpLink.exchange_of_isUp up]
  simp only [settled]

namespace Aligned

/-- A link with an empty buffer is aligned before its first request. -/
theorem of_empty {l : TcpLink} (empty : l.buffer = []) (next : l.ids.next = first) :
    Aligned first replies { link := l } where
  next := by
    rw [transactionOf]
    simpa using next
  begins := List.nil_prefix
  answered := by simp
  whole _ := ⟨[], replies, rfl, by simp [empty]⟩
  emptied _ := empty

/-- What is in the buffer and under way begins the replies that are not consumed. -/
theorem begins_left (answers : s.Answers first (used ++ left) t)
    (sent : s.sent = stream first used ++ s.link.buffer ++ s.wire.bytes) :
    s.link.buffer ++ Wire.bytes (s.wire ++ t.arrivals) <+: stream first left := by
  have begins := answers.begins
  rw [sent, Tcp.stream_append, List.append_assoc, List.append_assoc,
    List.prefix_append_right_inj] at begins
  simpa using begins

theorem after (h : Aligned first replies s) (up : s.link.state.isUp = true)
    (answers : s.Answers first replies t) : Aligned first replies (s.after t) := by
  obtain ⟨used, left, rfl, sent⟩ := h.whole up
  have concluded := concluded up (begins_left answers sent)
  have onward {consumed later : List Reply}
      (whole : left = consumed ++ later)
      (bytes : s.link.buffer ++ Wire.bytes (s.wire ++ t.arrivals) =
        stream first consumed ++ (s.call t).link.buffer ++ (s.call t).wire.bytes) :
      ∃ used' left', used ++ left = used' ++ left' ∧ (s.after t).sent =
        stream first used' ++ (s.after t).link.buffer ++ (s.after t).wire.bytes := by
    refine ⟨used ++ consumed, later, by rw [whole, List.append_assoc], ?_⟩
    rw [Wire.bytes_append, ← List.append_assoc] at bytes
    rw [after_sent, sent, List.append_assoc, List.append_assoc,
      ← List.append_assoc s.link.buffer, bytes, Tcp.stream_append]
    simp
  refine ⟨?_, answers.begins, ?_, ?_, ?_⟩
  · rw [after_link, after_requests, next_call up, h.next, transactionOf, transactionOf,
      UInt16.ofNat_add, UInt16.add_assoc]
    rfl
  · intro earlier r later whole begun
    rcases Nat.lt_or_ge (stream first earlier).length s.sent.length with before | now
    · exact Nat.lt_succ_of_lt (h.answered earlier r later whole before)
    · exact Nat.lt_succ_of_le (answers.timely earlier r later whole now begun).1
  · intro still
    cases concluded with
    | answered whole bytes own result up' =>
      exact onward (by rw [whole, List.append_assoc]; rfl) bytes
    | late whole bytes missed result timeout up' => exact onward whole bytes
    | broken breaks missed result connection down emptied =>
      rw [after_link, down] at still
      cases still
  · exact fun down => (concluded.emptied_of_down down).1

end Aligned

/-- The sessions of a connection, from the time at which it is made. -/
inductive Conversation (first : UInt16) (replies : List Reply) : Session → Prop where
  /-- The link has just been made. -/
  | made {l : TcpLink} :
    l.state.isUp = true → l.buffer = [] → l.ids.next = first →
    Conversation first replies { link := l }
  /-- One more exchange. -/
  | turn {s : Session} {t : Turn} :
    Conversation first replies s → s.link.state.isUp = true → s.Answers first replies t →
    Conversation first replies (s.after t)

theorem Conversation.aligned (h : Conversation first replies s) : Aligned first replies s := by
  induction h with
  | made _ empty next => exact .of_empty empty next
  | turn _ up answers ih => exact ih.after up answers

/-- The reply that an exchange returns is to its own request, or it is overdue. -/
theorem own_or_overdue (aligned : Aligned first replies s) (answers : s.Answers first replies t)
    (whole : replies = used ++ left)
    (sent : s.sent = stream first used ++ s.link.buffer ++ s.wire.bytes)
    {skipped later : List Reply} {r : Reply} (split : left = skipped ++ r :: later)
    (bytes : s.link.buffer ++ Wire.bytes (s.wire ++ t.arrivals) =
      stream first (skipped ++ [r]) ++ (s.call t).link.buffer ++ (s.call t).wire.bytes)
    (own : transactionOf first r.request = s.link.ids.next) :
    r.request = s.requests ∨ s.Overdue first replies r := by
  have place : replies = (used ++ skipped) ++ r :: later := by
    rw [whole, split, List.append_assoc]
  have same : transactionOf first r.request = transactionOf first s.requests :=
    own.trans aligned.next
  have pos := r.frame_pos first
  rcases Nat.lt_or_ge (stream first (used ++ skipped)).length s.sent.length with before | now
  · -- Its request was made before, so its transaction is used once more.
    have made := aligned.answered _ r later place before
    obtain ⟨rounds, apart⟩ := Tcp.exists_rounds same (Nat.le_of_lt made)
    refine .inr ⟨⟨_, later, place, before, ?_⟩, rounds, by omega, apart⟩
    rw [received_eq sent]
    simp only [Tcp.stream_append, Tcp.stream_cons, List.length_append]
    omega
  · have lengths := congrArg List.length bytes
    have begun : (stream first (used ++ skipped)).length <
        (s.sent ++ t.arrivals.bytes).length := by
      rw [sent]
      simp only [Tcp.stream_append, Tcp.stream_cons, Wire.bytes_append, List.length_append]
        at lengths ⊢
      omega
    obtain ⟨made, late⟩ := answers.timely _ r later place now begun
    obtain ⟨rounds, apart⟩ := Tcp.exists_rounds same made
    exact .inl (by omega)

theorem delivered_eq_nil (h : t.sending ≠ .whole) : s.delivered t = [] := by
  cases sending : t.sending with
  | whole => exact absurd sending h
  | late _ | failed _ _ _ => simp [delivered, sending]

/-- The reply to a request is not missed if all of it is delivered. -/
theorem not_missed (aligned : Aligned first replies s) (whole : replies = used ++ left)
    (sent : s.sent = stream first used ++ s.link.buffer ++ s.wire.bytes)
    {earlier later : List Reply} {r : Reply} (split : replies = earlier ++ r :: later)
    (own : r.request = s.requests)
    (came : (stream first (earlier ++ [r])).length ≤ (s.received ++ s.delivered t).length) :
    ¬ s.Missed first left t := by
  intro missed
  have pos := r.frame_pos first
  -- Before the turn its request is not made, so no byte of it can have come.
  have unsent : s.sent.length ≤ (stream first earlier).length := by
    refine Nat.le_of_not_lt fun begun => ?_
    have before := aligned.answered earlier r later split begun
    omega
  have received := received_eq sent
  simp only [Tcp.stream_append, Tcp.stream_cons, Tcp.stream_nil, List.append_nil,
    List.length_append, received] at came
  by_cases sending : t.sending = .whole
  · obtain ⟨skipped, behind, rest, rfl, bytes, foreign, cut⟩ := missed sending
    have mine : transactionOf first r.request = s.link.ids.next := by rw [own, aligned.next]
    have others : ∃ between, earlier = used ++ between := by
      rcases List.append_eq_append_iff.mp (whole.symm.trans split) with
        ⟨between, here, -⟩ | ⟨between, rfl, -⟩
      · exact ⟨between, here⟩
      · cases between with
        | nil => exact ⟨[], by simp⟩
        | cons x between =>
          have longer := x.frame_pos first
          rw [sent] at unsent
          simp only [Tcp.stream_append, Tcp.stream_cons, List.length_append] at unsent
          omega
    obtain ⟨between, rfl⟩ := others
    rw [whole, List.append_assoc] at split
    have short := cut.behind foreign mine (List.append_cancel_left split)
    have lengths := congrArg List.length bytes
    simp only [Tcp.stream_append, Tcp.stream_cons, Tcp.stream_nil, List.append_nil,
      List.length_append] at short lengths came
    omega
  · rw [sent] at unsent
    simp only [delivered_eq_nil sending, List.length_append, List.length_nil] at came unsent
    omega

/-- An exchange on a connection returns the reply to its own request, or one that is overdue, or
times out, or the link breaks.  It returns the reply if all of it is delivered and no other is
overdue.  What was received is whole replies and the buffer, which begins a reply, and nothing is
kept for the next connection. -/
theorem exchange_in_step (distinct : (replies.map Reply.request).Nodup)
    (reached : Conversation first replies s) (up : s.link.state.isUp = true)
    (answers : s.Answers first replies t) :
    (∀ p, (s.call t).result = .ok p → ∃ r ∈ replies, r.pdu = p ∧
        (r.request = s.requests ∨ s.Overdue first replies r)) ∧
      (∀ fault, (s.call t).result = .error fault → fault.isFrame = false ∧
        (fault.isTimeout = true ∨ fault.isConnection = true ∧ s.Breaks t)) ∧
      (∀ earlier r later, replies = earlier ++ r :: later → r.request = s.requests →
        (stream first (earlier ++ [r])).length ≤ (s.received ++ s.delivered t).length →
        (∀ r' ∈ replies, ¬ s.Overdue first replies r') → (s.call t).result = .ok r.pdu) ∧
      ((s.after t).link.state.isUp = true → ∃ used left, replies = used ++ left ∧
        (s.after t).sent = (s.after t).received ++ (s.after t).wire.bytes ∧
        (s.after t).received = stream first used ++ (s.after t).link.buffer ∧
        (s.after t).link.buffer <+: stream first left) ∧
      ((s.after t).link.state.isUp = false → (s.after t).link.buffer = [] ∧ s.Breaks t) ∧
      (s.after t).link.close.buffer = [] := by
  have aligned := reached.aligned
  have onward := aligned.after up answers
  obtain ⟨used, left, whole, sent⟩ := aligned.whole up
  have concluded := concluded up (Aligned.begins_left (whole ▸ answers) sent)
  have own {p : Pdu} (returned : (s.call t).result = .ok p) :
      ∃ r ∈ replies, r.pdu = p ∧ (r.request = s.requests ∨ s.Overdue first replies r) := by
    cases concluded with
    | @answered skipped later r split bytes mine result =>
      rw [result] at returned
      cases returned
      exact ⟨r, by simp [whole, split], rfl,
        own_or_overdue aligned answers whole sent split bytes mine⟩
    | late _ _ _ result =>
      rw [result] at returned
      cases returned
    | broken _ _ result =>
      rw [result] at returned
      cases returned
  refine ⟨fun p => own, fun fault => concluded.fault, ?_, ?_, ?_, ?_⟩
  · intro earlier r later split mine came current
    have missed := not_missed aligned whole sent split mine came
    cases concluded with
    | answered _ _ _ result =>
      obtain ⟨r', member, same, mine'⟩ := own result
      have unique : r' = r := List.inj_on_of_nodup_map distinct member (by simp [split])
        ((mine'.resolve_right (current r' member)).trans mine.symm)
      rw [result, ← same, unique]
    | late _ _ missed' => exact absurd missed' missed
    | broken _ missed' => exact absurd missed' missed
  · intro still
    obtain ⟨used, left, whole, sent⟩ := onward.whole still
    have received := received_eq sent
    have begins := onward.begins
    rw [whole, sent, Tcp.stream_append, List.append_assoc, List.prefix_append_right_inj] at begins
    exact ⟨used, left, whole, by rw [received]; exact sent, received,
      (List.prefix_append ..).trans begins⟩
  · exact concluded.emptied_of_down
  · rw [TcpLink.close]
    split
    next => rfl
    next down => exact onward.emptied (by simpa using down)

/-- Before the transactions have come round, no reply is overdue. -/
theorem not_overdue (few : s.requests < 65536) (r : Reply) : ¬ s.Overdue first replies r := by
  intro overdue
  obtain ⟨rounds, pos, same⟩ := overdue.again
  omega

/-- Where no more than the first reply has come, the replies are as late as that one. -/
theorem answers_of_first {r : Reply} {others : List Reply}
    (begins : s.sent ++ t.arrivals.bytes <+: stream first (r :: others))
    (short : (s.sent ++ t.arrivals.bytes).length ≤ (r.frame first).length)
    (timely : r.request ≤ s.requests ∧ s.requests < r.request + 65536) :
    s.Answers first (r :: others) t where
  begins := begins
  timely earlier r' later split _ begun := by
    cases earlier with
    | nil =>
      obtain ⟨rfl, -⟩ := List.cons.inj split
      exact timely
    | cons x between =>
      obtain ⟨rfl, -⟩ := List.cons.inj split
      rw [Tcp.stream_cons, List.length_append] at begun
      omega

/-! ## A reply that is cut -/

/-- The replies to two reads of one register. -/
def twoReplies : List Reply :=
  [⟨0, 1, ⟨[3, 2, 0, 7], by decide⟩, by decide⟩, ⟨1, 1, ⟨[3, 2, 0, 9], by decide⟩, by decide⟩]

def readRegister : Pdu := ⟨[3, 0, 0, 0, 1], by decide⟩

def fresh : Session :=
  { link :=
      { address := "127.0.0.1:502", connectTimeout := 100, timeout := 100
        state := { LinkState.down 0 0 with isUp := true } } }

/-- The time is up inside the header of the first reply, whose rest comes much later. -/
def cutTurn : Turn :=
  { unit := 1, pdu := readRegister, now := 0
    arrivals := [(10, .bytes [0, 1, 0, 0, 0]), (300, .bytes [5, 1, 3, 2, 0, 7])] }

def nextTurn : Turn :=
  { unit := 1, pdu := readRegister, now := 290
    arrivals := [(310, .bytes [0, 2, 0]), (320, .bytes [0, 0, 5, 1, 3, 2, 0, 9])] }

theorem call_cutTurn : (fresh.call cutTurn).wire = [(300, .bytes [5, 1, 3, 2, 0, 7])] ∧
    (fresh.call cutTurn).link.state.isUp = true ∧ (fresh.call cutTurn).link.timeout = 100 := by
  have empty : Tcp.seek 1 [] = (.ok none, []) := Tcp.seek_cut rfl
  have header : Tcp.seek 1 [0, 1, 0, 0, 0] = (.ok none, [0, 1, 0, 0, 0]) := Tcp.seek_cut rfl
  rw [call, TcpLink.exchange_of_isUp rfl]
  simp [fresh, cutTurn, TcpLink.transact, TcpLink.receive, empty, header, bind, Except.bind,
    TcpLink.settle_kept, TcpLink.isFatal, Fault.isConnection, Fault.isFrame, LinkState.begun,
    LinkState.blamed]

theorem cutTurn_answers : fresh.Answers 1 twoReplies cutTurn :=
  answers_of_first (by decide) (by decide) ⟨Nat.le_refl 0, by decide⟩

theorem nextTurn_answers : (fresh.after cutTurn).Answers 1 twoReplies nextTurn where
  begins := by
    rw [after_sent]
    decide
  timely earlier r later split _ _ := by
    have member : r ∈ twoReplies := by simp [split]
    rw [after_requests]
    simp only [twoReplies, List.mem_cons, List.not_mem_nil, or_false] at member
    rcases member with rfl | rfl
    · exact ⟨by decide, by decide⟩
    · exact ⟨by decide, by decide⟩

/-- The second request is answered by the second reply, behind the rest of the first one. -/
theorem second_in_step :
    Conversation 1 twoReplies (fresh.after cutTurn) ∧
      ((fresh.after cutTurn).call nextTurn).result = .ok ⟨[3, 2, 0, 9], by decide⟩ := by
  have start : Conversation 1 twoReplies fresh := .made rfl rfl rfl
  have reached : Conversation 1 twoReplies (fresh.after cutTurn) :=
    .turn start rfl cutTurn_answers
  obtain ⟨wire, up, timeout⟩ := call_cutTurn
  refine ⟨reached, ?_⟩
  have returned := (exchange_in_step (by decide) reached up nextTurn_answers).2.2.1
  refine returned [_] _ [] rfl rfl ?_ fun r _ => not_overdue (by decide) r
  have delivered : (fresh.after cutTurn).delivered nextTurn =
      [5, 1, 3, 2, 0, 7, 0, 2, 0, 0, 0, 5, 1, 3, 2, 0, 9] := by
    rw [Session.delivered, after_wire, wire, after_link, timeout]
    rfl
  have received : (fresh.after cutTurn).received = [0, 1, 0, 0, 0] := by
    refine received_eq ?_
    rw [after_wire, wire]
    rfl
  rw [delivered, received]
  decide

/-! ## A reply that is overdue -/

/-- A turn in whose time no byte of the request goes out. -/
def blockedTurn (now : Nanos) : Turn :=
  { unit := 1, pdu := readRegister, sending := .late 0, now }

/-- The session after so many blocked turns, one behind the other. -/
def blocked (s : Session) (start : Nanos) : Nat → Session
  | 0 => s
  | n + 1 => (s.blocked start n).after (blockedTurn (start + n * 100))

/-- A blocked turn uses a transaction and leaves all else as it is. -/
theorem call_blockedTurn (up : s.link.state.isUp = true) (now : Nanos) :
    (s.call (blockedTurn now)).wire = s.wire ∧
      (s.call (blockedTurn now)).link.buffer = s.link.buffer ∧
      (s.call (blockedTurn now)).link.timeout = s.link.timeout ∧
      (s.call (blockedTurn now)).link.state.isUp = true := by
  rw [call, TcpLink.exchange_of_isUp up]
  simp [blockedTurn, TcpLink.transact, bind, Except.bind, TcpLink.settle_kept, TcpLink.isFatal,
    Fault.isConnection, Fault.isFrame, LinkState.begun, LinkState.blamed, up]

theorem blockedTurn_answers (begins : s.sent <+: stream first replies) (now : Nanos) :
    s.Answers first replies (blockedTurn now) where
  begins := by simpa [blockedTurn] using begins
  timely _ _ _ _ now begun := by
    simp only [blockedTurn, Wire.bytes, List.flatMap_nil, List.append_nil] at begun
    omega

/-- What has come stays where it is for as many blocked turns as there are. -/
theorem stays_blocked (start : Nanos) (h : Conversation first replies s)
    (up : s.link.state.isUp = true) (n : Nat) :
    Conversation first replies (s.blocked start n) ∧
      (s.blocked start n).requests = s.requests + n ∧
      (s.blocked start n).sent = s.sent ∧
      (s.blocked start n).wire = s.wire ∧
      (s.blocked start n).link.buffer = s.link.buffer ∧
      (s.blocked start n).link.timeout = s.link.timeout ∧
      (s.blocked start n).link.state.isUp = true := by
  induction n with
  | zero => exact ⟨h, rfl, rfl, rfl, rfl, rfl, up⟩
  | succ n ih =>
    obtain ⟨reached, requests, sent, wire, buffer, timeout, up⟩ := ih
    have answers := blockedTurn_answers reached.aligned.begins (start + n * 100)
    obtain ⟨wire', buffer', timeout', up'⟩ := call_blockedTurn up (start + n * 100)
    refine ⟨reached.turn up answers, ?_, ?_, wire'.trans wire, buffer'.trans buffer,
      timeout'.trans timeout, up'⟩
    · rw [blocked, after_requests, requests]
      rfl
    · rw [blocked, after_sent, sent]
      exact List.append_nil _

/-- The replies to the first request and to the one that has its transaction again. -/
def roundReplies : List Reply :=
  [⟨0, 1, ⟨[3, 2, 0, 7], by decide⟩, by decide⟩, ⟨65536, 1, ⟨[3, 2, 0, 9], by decide⟩, by decide⟩]

/-- The reply comes when the time of its request is up. -/
def lateTurn : Turn :=
  { unit := 1, pdu := readRegister, now := 0
    arrivals := [(150, .bytes [0, 1, 0, 0, 0, 5, 1, 3, 2, 0, 7])] }

/-- The session after a late reply and a round of transactions in which nothing goes out. -/
def wentRound : Session := (fresh.after lateTurn).blocked 100 65535

/-- The request that has the first transaction again, and its reply. -/
def roundTurn : Turn :=
  { unit := 1, pdu := readRegister, now := 6553600
    arrivals := [(6553610, .bytes [0, 1, 0, 0, 0, 5, 1, 3, 2, 0, 9])] }

theorem call_lateTurn : (fresh.call lateTurn).wire = lateTurn.arrivals ∧
    (fresh.call lateTurn).link.buffer = [] ∧ (fresh.call lateTurn).link.timeout = 100 ∧
    (fresh.call lateTurn).link.state.isUp = true := by
  have empty : Tcp.seek 1 [] = (.ok none, []) := Tcp.seek_cut rfl
  rw [call, TcpLink.exchange_of_isUp rfl]
  simp [fresh, lateTurn, TcpLink.transact, TcpLink.receive, empty, bind, Except.bind,
    TcpLink.settle_kept, TcpLink.isFatal, Fault.isConnection, Fault.isFrame, LinkState.begun,
    LinkState.blamed]

theorem lateTurn_answers : fresh.Answers 1 roundReplies lateTurn :=
  answers_of_first (by decide) (by decide) ⟨Nat.le_refl 0, by decide⟩

/-- A session in which the first reply waits on the wire when its transaction has come round. -/
structure HasOverdue (s : Session) : Prop where
  reached : Conversation 1 roundReplies s
  requests : s.requests = 65536
  sent : s.sent = lateTurn.arrivals.bytes
  wire : s.wire = lateTurn.arrivals
  buffer : s.link.buffer = []
  timeout : s.link.timeout = 100
  up : s.link.state.isUp = true

theorem hasOverdue_wentRound : HasOverdue wentRound := by
  obtain ⟨late_wire, late_buffer, late_timeout, late_up⟩ := call_lateTurn
  have start : Conversation 1 roundReplies (fresh.after lateTurn) :=
    .turn (.made rfl rfl rfl) rfl lateTurn_answers
  have first : (fresh.after lateTurn).requests = 1 := rfl
  obtain ⟨reached, requests, sent, wire, buffer, timeout, up⟩ :=
    stays_blocked 100 start late_up 65535
  rw [wentRound]
  exact {
    reached := reached
    requests := by rw [requests, first]
    sent := by rw [sent, after_sent]; rfl
    wire := by rw [wire, after_wire, late_wire]
    buffer := by rw [buffer, after_link, late_buffer]
    timeout := by rw [timeout, after_link, late_timeout]
    up := up }

namespace HasOverdue

theorem answers (h : HasOverdue s) : s.Answers 1 roundReplies roundTurn where
  begins := by
    rw [h.sent]
    decide
  timely earlier r later split begun _ := by
    rw [h.sent] at begun
    rw [h.requests]
    cases earlier with
    | nil => exact absurd begun (by decide)
    | cons first others =>
      have member : r ∈ roundReplies.tail := by
        rw [split]
        simp
      rw [List.mem_singleton.mp member]
      exact ⟨Nat.le_refl _, by decide⟩

/-- Both replies are delivered. -/
theorem delivered_eq (h : HasOverdue s) : s.delivered roundTurn = stream 1 roundReplies := by
  simp only [Session.delivered, roundTurn, h.wire, h.timeout]
  decide

/-- What waits on the wire is read first, and it has the transaction of the request. -/
theorem call_roundTurn (h : HasOverdue s) :
    (s.call roundTurn).result = .ok ⟨[3, 2, 0, 7], by decide⟩ := by
  have next : s.link.ids.next = 1 := by
    rw [h.reached.aligned.next, h.requests]
    decide
  have empty : Tcp.seek 1 [] = (.ok none, []) := Tcp.seek_cut rfl
  have found : Tcp.seek 1 [0, 1, 0, 0, 0, 5, 1, 3, 2, 0, 7] =
      (.ok (some [0, 1, 0, 0, 0, 5, 1, 3, 2, 0, 7]), []) := by
    have whole : [0, 1, 0, 0, 0, 5, 1, 3, 2, 0, 7] =
        Reply.frame 1 ⟨0, 1, ⟨[3, 2, 0, 7], by decide⟩, by decide⟩ ++ [] := rfl
    rw [whole, Tcp.seek_frame]
    rfl
  rw [call, TcpLink.exchange_of_isUp h.up]
  simp [roundTurn, lateTurn, h.wire, h.buffer, h.timeout, next, TcpLink.transact,
    TcpLink.receive, empty, TcpLink.receive_at_once found, bind, Except.bind,
    Tcp.headerSize, Pdu.ofBytes, maxPduSize]

end HasOverdue

/-- A reply that stays unread for a round of transactions is returned to the request that has its
transaction again, although the reply to that request is delivered as well. -/
theorem overdue_reply_taken :
    (roundReplies.map Reply.request).Nodup ∧ Conversation 1 roundReplies wentRound ∧
      wentRound.link.state.isUp = true ∧ wentRound.Answers 1 roundReplies roundTurn ∧
      (stream 1 roundReplies).length ≤
        (wentRound.received ++ wentRound.delivered roundTurn).length ∧
      (wentRound.call roundTurn).result = .ok ⟨[3, 2, 0, 7], by decide⟩ ∧
      ¬ ∃ r ∈ roundReplies, r.pdu = ⟨[3, 2, 0, 7], by decide⟩ ∧
        r.request = wentRound.requests := by
  have overdue := hasOverdue_wentRound
  refine ⟨by decide, overdue.reached, overdue.up, overdue.answers, ?_, overdue.call_roundTurn, ?_⟩
  · rw [overdue.delivered_eq, List.length_append]
    exact Nat.le_add_left ..
  · rw [overdue.requests]
    decide

end Session

end Fieldbus
