import Fieldbus.Proofs.Link.Captures

/-!
# The balance of the counters

Each request that is sent ends once, with a success or with an error, though an error may come from
the exchange or from the answer.  So the counters of a link balance with what its calls gave
(`LinkStats.Balances`), whatever the calls are and however the other side treats them.  Calls that
end before their exchange do not show in them, but for attempts to make the link that fail.
-/

namespace Fieldbus

/-! ## Counters -/

namespace LinkStats

/-- The counters of what goes over the link are the same. -/
structure SameTraffic (s s' : LinkStats) : Prop where
  requests : s'.requests = s.requests
  responses : s'.responses = s.responses
  errors : s'.errors = s.errors
  timeouts : s'.timeouts = s.timeouts

/-- The counters agree with a number of calls that succeeded, and of attempts to make the link that
failed. -/
structure Balances (successes refusals : Nat) (s : LinkStats) : Prop where
  requests : s.requests = successes + s.errors
  timeouts : s.timeouts ≤ s.errors
  successes : successes ≤ s.responses
  responses : s.responses ≤ s.requests
  connectFailures : s.connectFailures = refusals

variable {s s' : LinkStats} {successes refusals : Nat}

theorem SameTraffic.refl (s : LinkStats) : SameTraffic s s := ⟨rfl, rfl, rfl, rfl⟩

theorem Balances.same (h : s.Balances successes refusals) (same : SameTraffic s s') {more : Nat}
    (failures : s'.connectFailures = s.connectFailures + more) :
    s'.Balances successes (refusals + more) where
  requests := by rw [same.requests, same.errors, h.requests]
  timeouts := by rw [same.timeouts, same.errors]; exact h.timeouts
  successes := by rw [same.responses]; exact h.successes
  responses := by rw [same.responses, same.requests]; exact h.responses
  connectFailures := by rw [failures, h.connectFailures]

/-- An error is no more than one timeout. -/
theorem timeouts_blame (s : LinkStats) (fault : Fault) :
    (s.blame fault).timeouts ≤ s.timeouts + 1 := by
  unfold blame
  dsimp only
  split
  next => exact Nat.le_refl _
  next => exact Nat.le_succ _

end LinkStats

namespace LinkState

variable {s s' : LinkState} {successes refusals : Nat} {frame response : List UInt8}
  {fault : Fault}

/-- A request, a response and a success. -/
theorem balances_answered (h : s.stats.Balances successes refusals) :
    ((s.begun frame).answered response).stats.Balances (successes + 1) refusals := by
  obtain ⟨requests, timeouts, succeeded, responses, failures⟩ := h
  constructor <;> simp only [answered, begun] <;> omega

/-- A request and an error. -/
theorem balances_failed (h : s.stats.Balances successes refusals) :
    ((s.begun frame).blamed fault).stats.Balances successes refusals := by
  obtain ⟨requests, timeouts, succeeded, responses, failures⟩ := h
  have := (s.begun frame).stats.timeouts_blame fault
  constructor <;> simp only [blamed, begun, LinkStats.blame] at * <;> omega

/-- A request, a response and an error. -/
theorem balances_refused (h : s.stats.Balances successes refusals) :
    (((s.begun frame).answered response).blamed fault).stats.Balances successes refusals := by
  obtain ⟨requests, timeouts, succeeded, responses, failures⟩ := h
  have := ((s.begun frame).answered response).stats.timeouts_blame fault
  constructor <;> simp only [blamed, answered, begun, LinkStats.blame] at * <;> omega

/-- Asking for the link counts an attempt that fails, and nothing that goes over the link. -/
theorem Asked.counts {now : Nanos} {refused : Prop} [Decidable refused]
    {result : Except Fault Unit} (h : s.Asked now refused result s') :
    s.stats.SameTraffic s'.stats ∧
      s'.stats.connectFailures =
        s.stats.connectFailures + if s.gate now = .free ∧ refused then 1 else 0 := by
  cases h with
  | up gate => exact ⟨.refl _, by simp [gate]⟩
  | held gate => exact ⟨.refl _, by simp [gate]⟩
  | made gate taken => exact ⟨⟨rfl, rfl, rfl, rfl⟩, by simp [gate, taken, LinkState.made]⟩
  | missed gate refused => exact ⟨⟨rfl, rfl, rfl, rfl⟩, by simp [gate, refused, LinkState.missed]⟩

end LinkState

/-! ## Calls -/

/-- Whether a call is to read or write. -/
def LinkCall.executes : LinkCall → Bool
  | read _ | write .. => true
  | connect | close => false

namespace ChannelLink

instance (l : ChannelLink) (d : Dial) : Decidable (l.Refuses d) :=
  match l with
  | tcp l => inferInstanceAs (Decidable (l.connectTimeout < d.duration ∨ d.refusal.isSome = true))
  | rtu _ => inferInstanceAs (Decidable (d.refusal.isSome = true))

/-- A call attempts to make the link, and the attempt fails. -/
def IsRefused (l : ChannelLink) (t : LinkTurn) : Prop :=
  t.call.needsLink = true ∧ l.state.gate t.now = .free ∧ l.Refuses t.conduct.dial

instance (l : ChannelLink) (t : LinkTurn) : Decidable (l.IsRefused t) :=
  inferInstanceAs (Decidable (_ ∧ _ ∧ _))

/-- The number of calls that read or write with success. -/
def successes (l : ChannelLink) : List LinkTurn → Nat
  | [] => 0
  | t :: rest =>
    (if t.call.executes && (l.turn t).result.isOk then 1 else 0) + (l.turn t).link.successes rest

/-- The number of attempts to make the link that fail. -/
def refusals (l : ChannelLink) : List LinkTurn → Nat
  | [] => 0
  | t :: rest => (if l.IsRefused t then 1 else 0) + (l.turn t).link.refusals rest

variable {l : ChannelLink} {t : LinkTurn} {successes refusals : Nat}

theorem executes_of_frame? {frame : List UInt8} (sends : t.call.frame? l = some frame) :
    t.call.executes = true ∧ t.call.needsLink = true := by
  refine ⟨?_, ?_⟩
  · cases call : t.call with
    | connect | close => rw [call] at sends; cases sends
    | read | write => rfl
  · by_contra unneeded
    rw [LinkCall.frame?_of_unneeded (Bool.not_eq_true _ ▸ unneeded)] at sends
    cases sends

/-- Asking for the link keeps the balance, if the call needs the link. -/
theorem balances_connect (h : l.state.stats.Balances successes refusals)
    (needs : t.call.needsLink = true) :
    (l.connect t.conduct t.now).link.state.stats.Balances successes
      (refusals + if l.IsRefused t then 1 else 0) := by
  obtain ⟨same, failures⟩ := (l.connect_asked t.conduct t.now).counts
  have refused : l.IsRefused t ↔ l.state.gate t.now = .free ∧ l.Refuses t.conduct.dial :=
    and_iff_right needs
  refine h.same same ?_
  simp only [failures, refused]

/-- A call keeps the balance. -/
theorem balances_turn (h : l.state.stats.Balances successes refusals) (t : LinkTurn) :
    (l.turn t).link.state.stats.Balances
      (successes + if t.call.executes && (l.turn t).result.isOk then 1 else 0)
      (refusals + if l.IsRefused t then 1 else 0) := by
  have unsuccessful (fault : Fault) :
      (t.call.executes && (Except.error fault : Except Fault Unit).isOk) = false :=
    Bool.and_false _
  have course := l.course t
  generalize (l.turn t).result = result, (l.turn t).link.state = s at course ⊢
  cases course with
  | closed call => simpa [call, LinkCall.executes, IsRefused, LinkCall.needsLink] using h
  | unmade unneeded => simpa [IsRefused, unneeded, unsuccessful] using h
  | connected call =>
    have asked := balances_connect h (t := t) (by rw [call]; rfl)
    simpa [call, LinkCall.executes] using asked
  | unreached sends =>
    rw [unsuccessful]
    exact balances_connect h (executes_of_frame? sends).2
  | failed sends =>
    rw [unsuccessful]
    exact LinkState.balances_failed (balances_connect h (executes_of_frame? sends).2)
  | refused sends =>
    rw [unsuccessful]
    exact LinkState.balances_refused (balances_connect h (executes_of_frame? sends).2)
  | answered sends made =>
    obtain ⟨executes, needs⟩ := executes_of_frame? sends
    rw [executes]
    exact LinkState.balances_answered (balances_connect h needs)

/-- A call that does not come to its exchange does not show in the counters of what goes over the
link. -/
theorem sameTraffic_turn (quiet : ¬ l.Exchanges t) :
    l.state.stats.SameTraffic (l.turn t).link.state.stats := by
  have course := l.course t
  generalize (l.turn t).result = result, (l.turn t).link.state = s at course ⊢
  cases course with
  | closed => exact .refl _
  | unmade => exact .refl _
  | connected | unreached => exact (l.connect_asked t.conduct t.now).counts.1
  | failed sends made | refused sends made | answered sends made =>
    exact absurd ⟨sends ▸ rfl, made⟩ quiet

/-! ## Runs -/

theorem balances_after (h : l.state.stats.Balances successes refusals) (turns : List LinkTurn) :
    (l.after turns).state.stats.Balances (successes + l.successes turns)
      (refusals + l.refusals turns) := by
  induction turns generalizing l successes refusals with
  | nil => exact h
  | cons t rest ih =>
    have later := ih (balances_turn h t)
    rw [Nat.add_assoc, Nat.add_assoc] at later
    exact later

/-- After any calls on a link that began with nothing counted, its counters balance, and the next
call that ends before its exchange leaves those of what goes over the link as they are. -/
theorem counters_balance {l : ChannelLink} (fresh : l.state.stats = {}) (turns : List LinkTurn) :
    (l.after turns).state.stats.Balances (l.successes turns) (l.refusals turns) ∧
      ∀ t, (l.after turns).Exchanges t ∨
        (l.after turns).state.stats.SameTraffic (l.after (turns ++ [t])).state.stats := by
  have start : l.state.stats.Balances 0 0 := by
    rw [fresh]
    exact ⟨rfl, Nat.le_refl _, Nat.le_refl _, Nat.le_refl _, rfl⟩
  refine ⟨?_, fun t => ?_⟩
  · have balances := balances_after start turns
    rwa [Nat.zero_add, Nat.zero_add] at balances
  · rw [after_concat]
    by_cases exchanges : (l.after turns).Exchanges t
    · exact .inl exchanges
    · exact .inr (sameTraffic_turn exchanges)

/-- An attempt that is refused, a read that is held back, one that succeeds, one that is cut off, and
a write to a point that is only read. -/
def mixed : List LinkTurn :=
  [{ call := .connect, conduct := { dial := { refusal := some "no such device" } }, now := 0 },
    { call := .read {}, conduct := {}, now := millis 500 },
    { call := .read {}, conduct := { wire := [(seconds 2, .bytes [1, 3, 2, 0, 7, 249, 134])] }
      now := seconds 2 },
    { call := .read {}, conduct := { wire := [(seconds 3, .bytes [1, 3, 2, 0])] }
      now := seconds 3 },
    { call := .write { id := 1, address := 0, type := .uint16 } [7], conduct := {}, now := seconds 4 }]

/-- One success, one error, which is a timeout, and one attempt that failed. -/
theorem mixed_counters_balance :
    unopened.state.stats = {} ∧ (unopened.after mixed).state.stats.Balances 1 1 ∧
      (unopened.after mixed).state.stats =
        { requests := 2, responses := 1, errors := 1, timeouts := 1, connects := 1
          connectFailures := 1, bytesSent := 16, bytesReceived := 7 } := by
  have successes : unopened.successes mixed = 1 := by decide +kernel
  have refusals : unopened.refusals mixed = 1 := by decide +kernel
  have balances := (counters_balance (l := unopened) rfl mixed).1
  rw [successes, refusals] at balances
  exact ⟨rfl, balances, by decide +kernel⟩

end ChannelLink

end Fieldbus
