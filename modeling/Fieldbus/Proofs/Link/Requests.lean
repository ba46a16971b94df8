import Fieldbus.Proofs.Link.Alignment

/-!
# Requests on a network connection

What goes out on a connection is the frames of its requests, one behind the other, as far as the
other side took them.  A request that the operating system cuts off breaks the connection, so
nothing follows it.  But a request whose time is up keeps the connection, even if only a part of
its frame was taken by then, and the next frame goes out behind that part
(`Session.torn_behind_late`).

`Session.taken_whole_or_late` says that this is the only way in which a frame is torn.  As long as
no request runs out of time before its frame is taken, the bytes on the connection are whole frames
and a beginning of the last one.
-/

namespace Fieldbus

namespace TcpLink

variable {l : TcpLink} {c : Conduct} {now : Nanos}

/-! ## Making a link -/

/-- A link that was down is made with an empty buffer. -/
theorem connect_eq_of_ok (down : l.state.isUp = false) (made : (l.connect c now).result = .ok ()) :
    l.connect c now =
      ⟨.ok (), { l with state := l.state.made, buffer := [] }, c.wire, now + c.dial.duration,
        []⟩ := by
  have gate : l.state.gate now ≠ .up := by
    unfold LinkState.gate
    rw [down, if_neg Bool.false_ne_true]
    split
    next => simp
    next => simp
  unfold connect at made ⊢
  split at made
  next up => exact absurd up gate
  next => cases made
  next =>
    split at made
    next => cases made
    next soon =>
      dsimp only at made
      split at made
      next accepted => rw [if_neg soon]
      next => cases made

/-- An exchange that has to make the link first is an exchange over the link that it makes. -/
theorem exchange_of_connect (down : l.state.isUp = false)
    (made : (l.connect c now).result = .ok ()) (unit : UInt8) (pdu : Pdu) :
    l.exchange unit pdu c now =
      (l.connect c now).link.exchange unit pdu c (l.connect c now).now := by
  have dialed := connect_eq_of_ok down made
  have up : (l.connect c now).link.state.isUp = true := by rw [dialed]; rfl
  rw [exchange_of_isUp up, exchange, dialed]
  rfl

end TcpLink

namespace Session

/-! ## Requests on their way -/

/-- A request that went out on a connection. -/
structure Outgoing where
  frame : List UInt8
  /-- The bytes of it that the other side took. -/
  taken : List UInt8
  /-- How its exchange ended. -/
  result : Except Fault Pdu

namespace Outgoing

/-- The time of the exchange was up before the whole frame was taken. -/
structure IsLate (r : Outgoing) : Prop where
  cut : r.taken.length < r.frame.length
  timeout : ∃ fault, r.result = .error fault ∧ fault.isTimeout = true

/-- What went out on a connection with some requests. -/
def bytes (requests : List Outgoing) : List UInt8 := requests.flatMap taken

end Outgoing

/-- The request of a turn. -/
def outgoing (s : Session) (t : Turn) : Outgoing :=
  ⟨(s.call t).link.state.frames.request, (s.call t).sent, (s.call t).result⟩

/-- The sessions of a connection from the time at which it is made, with the requests so far.  The
other side may take as much of each as it likes, and send whatever it likes. -/
inductive Connection : Session → List Outgoing → Prop where
  /-- The link has just been made. -/
  | made {l : TcpLink} {c : Conduct} {now : Nanos} :
    l.state.isUp = false → (l.connect c now).result = .ok () →
    Connection { link := (l.connect c now).link, wire := (l.connect c now).wire } []
  /-- One more exchange. -/
  | turn {s : Session} {t : Turn} {requests : List Outgoing} :
    Connection s requests → s.link.state.isUp = true →
    Connection (s.after t) (requests ++ [s.outgoing t])

variable {s : Session} {t : Turn} {requests : List Outgoing}

theorem request_settle (l : TcpLink) (result : Except Fault Pdu) (response : List UInt8) :
    (l.settle result response).state.frames.request = l.state.frames.request := by
  cases result with
  | ok _ => rfl
  | error fault =>
    rw [TcpLink.settle]
    split
    · rfl
    · rfl

theorem outgoing_eq (up : s.link.state.isUp = true) (t : Turn) :
    s.outgoing t = ⟨Tcp.encode s.link.ids.next t.unit t.pdu,
      t.sending.taken (Tcp.encode s.link.ids.next t.unit t.pdu), (s.call t).result⟩ := by
  rw [outgoing, call, TcpLink.exchange_of_isUp up]
  simp only [request_settle, LinkState.begun]

/-- What is taken of a frame is a beginning of it. -/
theorem taken_prefix (frame : List UInt8) (sending : Sending) : sending.taken frame <+: frame := by
  cases sending with
  | whole => exact List.prefix_refl frame
  | late n => exact List.take_prefix n frame
  | failed n condition text => exact List.take_prefix n frame

/-- A frame that is not taken as a whole was late, or the link is down. -/
theorem outgoing_cases (up : s.link.state.isUp = true) (t : Turn) :
    (s.outgoing t).taken = (s.outgoing t).frame ∨ (s.outgoing t).IsLate ∨
      (s.after t).link.state.isUp = false := by
  rw [outgoing_eq up, after_link]
  have called := TcpLink.exchange_of_isUp up t.unit t.pdu
    { sending := t.sending, wire := s.wire ++ t.arrivals } t.now
  rw [← call] at called
  cases sending : t.sending with
  | whole => exact .inl rfl
  | late n =>
    rw [sending] at called
    rcases Nat.lt_or_ge n (Tcp.encode s.link.ids.next t.unit t.pdu).length with cut | enough
    · refine .inr (.inl ⟨?_, ?_⟩)
      · simp only [Sending.taken, List.length_take]
        omega
      · exact ⟨_, congrArg Called.result called, rfl⟩
    · exact .inl (List.take_of_length_le enough)
  | failed n condition text =>
    have fatal : TcpLink.isFatal (.ofSystem condition text) = true := by
      simp [TcpLink.isFatal, condition.isConnection text]
    simp only [sending, TcpLink.transact, bind, Except.bind] at called
    rw [TcpLink.settle_dropped _ fatal] at called
    refine .inr (.inr ?_)
    rw [called]
    rfl

/-! ## All requests of a connection -/

/-- What is known of the requests of a connection. -/
structure Sound (s : Session) (requests : List Outgoing) : Prop where
  frame : ∀ r ∈ requests, ∃ transaction unit pdu, r.frame = Tcp.encode transaction unit pdu
  begins : ∀ r ∈ requests, r.taken <+: r.frame
  followed : ∀ r ∈ requests.dropLast, r.taken = r.frame ∨ r.IsLate
  kept : s.link.state.isUp = true → ∀ r ∈ requests, r.taken = r.frame ∨ r.IsLate

theorem Sound.turn (h : Sound s requests) (up : s.link.state.isUp = true) (t : Turn) :
    Sound (s.after t) (requests ++ [s.outgoing t]) := by
  have own := outgoing_eq up t
  refine ⟨?_, ?_, ?_, ?_⟩
  · intro r member
    rcases List.mem_append.mp member with earlier | last
    · exact h.frame r earlier
    · rw [List.mem_singleton.mp last, own]
      exact ⟨_, _, _, rfl⟩
  · intro r member
    rcases List.mem_append.mp member with earlier | last
    · exact h.begins r earlier
    · rw [List.mem_singleton.mp last, own]
      exact taken_prefix ..
  · -- The link was up before this request, so those before it are whole or were late.
    rw [List.dropLast_concat]
    exact h.kept up
  · intro still r member
    rcases List.mem_append.mp member with earlier | last
    · exact h.kept up r earlier
    · rw [List.mem_singleton.mp last]
      rcases outgoing_cases up t with whole | late | down
      · exact .inl whole
      · exact .inr late
      · rw [down] at still
        cases still

theorem Connection.sound (h : Connection s requests) : Sound s requests := by
  induction h with
  | made _ _ => exact ⟨by simp, by simp, by simp, by simp⟩
  | turn _ up ih => exact ih.turn up _

/-- Requests that are taken as a whole go out as their frames. -/
theorem bytes_of_whole (whole : ∀ r ∈ requests, r.taken = r.frame) :
    Outgoing.bytes requests = (requests.map Outgoing.frame).flatten := by
  rw [Outgoing.bytes, List.flatMap, List.map_congr_left whole]

/-- On a connection each request is taken as a whole, unless it is the last one or its time was up
before.  If no time was, the bytes are whole frames and a beginning of the last one. -/
theorem taken_whole_or_late (h : Connection s requests) :
    (∀ r ∈ requests, r.taken <+: r.frame ∧
      ∃ transaction unit pdu, r.frame = Tcp.encode transaction unit pdu) ∧
    (∀ r ∈ requests.dropLast, r.taken = r.frame ∨ r.IsLate) ∧
    (s.link.state.isUp = true → ∀ r ∈ requests, r.taken = r.frame ∨ r.IsLate) ∧
    ((∀ r ∈ requests.dropLast, ¬ r.IsLate) → ∀ last ∈ requests.getLast?, ∃ n,
      Outgoing.bytes requests =
        (requests.dropLast.map Outgoing.frame).flatten ++ last.frame.take n) := by
  have sound := h.sound
  refine ⟨fun r member => ⟨sound.begins r member, sound.frame r member⟩, sound.followed, sound.kept,
    fun timely last isLast => ?_⟩
  obtain ⟨earlier, rfl⟩ := List.getLast?_eq_some_iff.mp isLast
  rw [List.dropLast_concat] at timely ⊢
  have whole : ∀ r ∈ earlier, r.taken = r.frame := by
    intro r member
    have followed := sound.followed r (by rw [List.dropLast_concat]; exact member)
    exact followed.resolve_right (timely r member)
  obtain ⟨rest, begins⟩ := sound.begins last (by simp)
  refine ⟨last.taken.length, ?_⟩
  rw [← begins, List.take_left, ← bytes_of_whole whole]
  simp [Outgoing.bytes]

/-! ## A request that is cut -/

def offline : TcpLink :=
  { address := "127.0.0.1:502", connectTimeout := 100, timeout := 100, state := .down 0 0 }

def online : Session :=
  { link := (offline.connect {} 0).link, wire := (offline.connect {} 0).wire }

/-- A read of one register, of whose frame so many bytes are taken in time. -/
def readTurn (taken : Nat) (now : Nanos) : Turn :=
  { unit := 1, pdu := readRegister, sending := .late taken, now }

/-- Two such reads, one after the other. -/
def twoReads (first second : Nat) : List Outgoing :=
  [online.outgoing (readTurn first 0),
    (online.after (readTurn first 0)).outgoing (readTurn second 200)]

theorem twoReads_connection (first second : Nat) :
    Connection ((online.after (readTurn first 0)).after (readTurn second 200))
      (twoReads first second) :=
  .turn (.turn (.made rfl rfl) rfl) rfl

/-- The first frame is taken as a whole and its reply is late, the second one is cut. -/
theorem twoReads_taken_whole_or_late :
    Connection ((online.after (readTurn 12 0)).after (readTurn 5 200)) (twoReads 12 5) ∧
      (∀ r ∈ (twoReads 12 5).dropLast, ¬ r.IsLate) ∧
      ∃ n, Outgoing.bytes (twoReads 12 5) =
        [0, 1, 0, 0, 0, 6, 1, 3, 0, 0, 0, 1] ++ [0, 2, 0, 0, 0, 6, 1, 3, 0, 0, 0, 1].take n := by
  have connection := twoReads_connection 12 5
  have timely : ∀ r ∈ (twoReads 12 5).dropLast, ¬ r.IsLate := by
    intro r member late
    rw [List.mem_singleton.mp member] at late
    exact absurd late.cut (by decide)
  obtain ⟨-, -, -, whole⟩ := taken_whole_or_late connection
  exact ⟨connection, timely, whole timely _ rfl⟩

/-- The time of the first request is up when three bytes are taken, and the second frame goes out
behind them. -/
theorem torn_behind_late :
    Connection ((online.after (readTurn 3 0)).after (readTurn 12 200)) (twoReads 3 12) ∧
      Outgoing.bytes (twoReads 3 12) =
        [0, 1, 0] ++ [0, 2, 0, 0, 0, 6, 1, 3, 0, 0, 0, 1] ∧
      ¬ ∃ n, Outgoing.bytes (twoReads 3 12) =
        [0, 1, 0, 0, 0, 6, 1, 3, 0, 0, 0, 1] ++ [0, 2, 0, 0, 0, 6, 1, 3, 0, 0, 0, 1].take n := by
  have bytes : Outgoing.bytes (twoReads 3 12) =
      [0, 1, 0] ++ [0, 2, 0, 0, 0, 6, 1, 3, 0, 0, 0, 1] := by decide
  refine ⟨twoReads_connection 3 12, bytes, ?_⟩
  rintro ⟨n, torn⟩
  rw [bytes] at torn
  -- The fourth byte begins the second frame, where the first one would go on.
  have fourth := congrArg (·[4]?) torn
  simp at fourth

end Session

end Fieldbus
