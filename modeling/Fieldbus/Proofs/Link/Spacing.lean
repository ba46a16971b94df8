import Mathlib.Data.List.Induction
import Fieldbus.Link.Channel
import Fieldbus.Proofs.Binary.Exact

/-!
# The spacing of attempts

A link is made by whichever call needs it first: a connect, a read or a write.  All of them ask one
gate, and a call does one of four things to it (`LinkState.Meets`).  The attempts of a run determine
the gate, as far as they failed since the last one that succeeded (`LinkState.Counts`), and so when
the next attempt is due (`due?`).

Pauses are computed with doubles.  For durations below `2 ^ 53` their products are exact
(`Reconnect.pause_eq`).
-/

namespace Fieldbus

/-! ## Pauses -/

theorem power_two : ∀ k ≤ 64,
    power (DelayNumber.atLeastOne (DelayNumber.ofNat 2 : Binary64)) k = .ofDyadic false 1 k := by
  decide +kernel

/-- Each failure doubles the pause, up to the greatest one. -/
theorem Reconnect.pause_eq {r : Reconnect} (initial : r.initial < 2 ^ 53) (max : r.max < 2 ^ 53) :
    r.pause Binary64 = min r.max (r.initial * 2 ^ min r.failures 64) := by
  have few : min r.failures 64 ≤ 64 := Nat.min_le_right ..
  have base : (DelayNumber.ofNat r.initial : Binary64).Holds r.initial :=
    Binary64.holds_ofNat initial
  have factor := Binary64.holds_ofDyadic (a := 1) (by decide) (min r.failures 64) (by omega)
  rw [Nat.one_mul] at factor
  have product := base.mul_two_pow initial few factor
  have below := product.lt_iff (Binary64.holds_ofNat max)
  have cap : r.max ≤ maxNanos := Nat.le_trans (Nat.le_of_lt max) (by decide)
  unfold pause stretched
  rw [power_two _ few]
  simp only [DelayNumber.nearestBelow?, DelayNumber.mul, product.round, product.isFinite,
    product.truncate, Bool.true_and, below]
  split_ifs with short
  · have within := Nat.le_of_lt short
    simp only [Int.toNat_natCast]
    rw [Nat.min_eq_left (Nat.le_trans within cap), Nat.min_eq_right within]
  · exact (Nat.min_eq_left (Nat.not_lt.mp short)).symm

/-! ## Attempts -/

/-- An attempt to make a link. -/
inductive LinkAttempt where
  | made
  /-- It failed at a time. -/
  | missed (time : Nanos)
deriving DecidableEq, Repr

namespace LinkAttempt

def missedAt? : LinkAttempt → Option Nanos
  | made => none
  | missed time => some time

/-- When the attempts failed since the last one that made the link, the last one first. -/
def misses (attempts : List LinkAttempt) : List Nanos :=
  (attempts.reverse.takeWhile (·.missedAt?.isSome)).filterMap missedAt?

@[simp] theorem misses_nil : misses [] = [] := rfl

@[simp] theorem misses_concat_made (attempts : List LinkAttempt) :
    misses (attempts ++ [.made]) = [] := by
  simp [misses, missedAt?]

@[simp] theorem misses_concat_missed (attempts : List LinkAttempt) (time : Nanos) :
    misses (attempts ++ [.missed time]) = time :: misses attempts := by
  simp [misses, missedAt?]

end LinkAttempt

/-- When the next attempt is due, if the last one failed. -/
def due? (initial max : Nanos) (misses : List Nanos) : Option Nanos :=
  misses.head?.map (· + min max (initial * 2 ^ min (misses.length - 1) 64))

/-! ## The gate -/

namespace LinkState

variable {s s' s'' : LinkState} {initial max now time : Nanos} {misses : List Nanos}

/-- No attempt lies between the states. -/
structure Kept (s s' : LinkState) : Prop where
  reconnect : s'.reconnect = s.reconnect
  connects : s'.stats.connects = s.stats.connects
  connectFailures : s'.stats.connectFailures = s.stats.connectFailures
  isUp : s'.isUp = true → s.isUp = true

theorem Kept.refl (s : LinkState) : Kept s s := ⟨rfl, rfl, rfl, id⟩

theorem Kept.trans (h : Kept s s') (h' : Kept s' s'') : Kept s s'' :=
  ⟨h'.reconnect.trans h.reconnect, h'.connects.trans h.connects,
    h'.connectFailures.trans h.connectFailures, h.isUp ∘ h'.isUp⟩

theorem kept_begun (frame : List UInt8) : Kept s (s.begun frame) := ⟨rfl, rfl, rfl, id⟩

theorem kept_answered (response : List UInt8) : Kept s (s.answered response) := ⟨rfl, rfl, rfl, id⟩

theorem kept_blamed (fault : Fault) : Kept s (s.blamed fault) := ⟨rfl, rfl, rfl, id⟩

theorem kept_dropped : Kept s s.dropped := ⟨rfl, rfl, rfl, fun up => by cases up⟩

/-- The spacing goes by the attempts that failed since the last one that made the link. -/
structure Counts (initial max : Nanos) (misses : List Nanos) (s : LinkState) : Prop where
  reconnect : s.reconnect =
    ⟨initial, max, min misses.length maxFailures, due? initial max misses⟩
  /-- A link that is up has been made by the last attempt. -/
  up : s.isUp = true → misses = []

theorem Counts.kept (h : Counts initial max misses s) (kept : Kept s s') :
    Counts initial max misses s' :=
  ⟨kept.reconnect.trans h.reconnect, h.up ∘ kept.isUp⟩

theorem Counts.made (h : Counts initial max misses s) : Counts initial max [] s.made := by
  refine ⟨?_, fun _ => rfl⟩
  simp only [LinkState.made, Reconnect.succeeded, h.reconnect]
  rfl

/-- The pause after a failure is counted from that failure on. -/
theorem Counts.missed (first : initial < 2 ^ 53) (greatest : max < 2 ^ 53)
    (h : Counts initial max misses s) (down : s.isUp = false) (time : Nanos) :
    Counts initial max (time :: misses) (s.missed time) := by
  have many : 64 ≤ maxFailures := by decide
  refine ⟨?_, fun up => absurd (down.symm.trans up) Bool.false_ne_true⟩
  have pause := Reconnect.pause_eq (r := s.reconnect) (by rwa [h.reconnect]) (by rwa [h.reconnect])
  have exponent : min (min misses.length maxFailures) 64 = min misses.length 64 := by omega
  simp only [LinkState.missed, Reconnect.failed, Reconnect.failedIn, pause]
  simp only [h.reconnect, exponent, due?, List.head?_cons, Option.map_some, List.length_cons,
    Nat.add_sub_cancel, Reconnect.mk.injEq, true_and, and_true]
  omega

/-- The gate is closed until the next attempt is due. -/
theorem Counts.gate_of_lt (h : Counts initial max misses s) {due : Nanos}
    (known : due? initial max misses = some due) (early : now < due) :
    s.gate now = .held (due - now) := by
  have down : s.isUp = false := by
    rw [Bool.eq_false_iff]
    intro up
    rw [h.up up] at known
    cases known
  simp [gate, down, Reconnect.remaining?, h.reconnect, known, Option.filter, early]

theorem Counts.gate_free_iff (h : Counts initial max misses s) :
    s.gate now = .free ↔
      s.isUp = false ∧ ∀ due, due? initial max misses = some due → due ≤ now := by
  unfold gate Reconnect.remaining?
  rw [h.reconnect]
  cases s.isUp with
  | true => simp
  | false =>
    cases due? initial max misses with
    | none => simp
    | some due =>
      by_cases early : now < due
      · simp [Option.filter, early]
      · simp [Option.filter, early, Nat.not_lt.mp early]

end LinkState

/-! ## Calls -/

namespace Called

variable {L α β : Type}

/-- A call that needs the link asks the gate. -/
inductive Meets (state : L → LinkState) (l : L) (c : Conduct) (now : Nanos) (e : Called L α) : Prop
  | up : (state l).gate now = .up → (state l).Kept (state e.link) → Meets state l c now e
  /-- A call that is held back changes nothing. -/
  | held (remaining : Nanos) : (state l).gate now = .held remaining →
    e = .unsent l c now (.held remaining) → Meets state l c now e
  | made : (state l).gate now = .free → (state l).made.Kept (state e.link) → Meets state l c now e
  | missed (fault : Fault) : (state l).gate now = .free → state e.link = (state l).missed e.now →
    e.result = .error fault → Meets state l c now e

variable {state : L → LinkState} {l : L} {c : Conduct} {now : Nanos} {e : Called L α}

/-- A call that ends where the gate was asked. -/
theorem Meets.failed (h : e.Meets state l c now) {fault : Fault}
    (result : e.result = .error fault) :
    ({ e with result := .error fault } : Called L β).Meets state l c now := by
  cases h with
  | up gate kept => exact .up gate kept
  | held remaining gate whole =>
    subst whole
    cases result
    exact .held remaining gate rfl
  | made gate kept => exact .made gate kept
  | missed fault' gate missed result' => exact .missed fault gate missed rfl

/-- A call that goes on over the link. -/
theorem Meets.after (h : e.Meets state l c now) {value : α} (result : e.result = .ok value)
    {e' : Called L β} (kept : (state e.link).Kept (state e'.link)) : e'.Meets state l c now := by
  cases h with
  | up gate before => exact .up gate (before.trans kept)
  | held remaining gate whole =>
    subst whole
    cases result
  | made gate before => exact .made gate (before.trans kept)
  | missed fault gate missed result' => cases result.symm.trans result'

theorem Meets.parsed {e : Called L Pdu} (h : e.Meets state l c now) {blame : L → Fault → L}
    (blamed : ∀ l fault, (state l).Kept (state (blame l fault))) (parse : Pdu → Except Fault β) :
    (e.parsed blame parse).Meets state l c now := by
  unfold Called.parsed
  split
  next fault result => exact h.failed result
  next response result =>
    split
    next value _ => exact h.after result (.refl _)
    next fault _ => exact h.after result (blamed e.link fault)

end Called

namespace TcpLink

variable (l : TcpLink) (c : Conduct) (now : Nanos)

theorem connect_meets : (l.connect c now).Meets state l c now := by
  unfold connect
  split
  next gate => exact .up gate (.refl _)
  next remaining gate => exact .held remaining gate rfl
  next gate =>
    split
    next => exact .missed _ gate rfl rfl
    next =>
      dsimp only
      split
      next => exact .made gate (.refl _)
      next text _ => exact .missed _ gate rfl rfl

theorem kept_settle {l : TcpLink} {s : LinkState} (h : s.Kept l.state) (result : Except Fault Pdu)
    (response : List UInt8) : s.Kept (l.settle result response).state := by
  refine h.trans ?_
  unfold settle
  split
  next => exact LinkState.kept_answered _
  next fault =>
    dsimp only
    split
    next => exact (LinkState.kept_blamed fault).trans LinkState.kept_dropped
    next => exact LinkState.kept_blamed fault

theorem exchange_meets (unit : UInt8) (pdu : Pdu) :
    (l.exchange unit pdu c now).Meets state l c now := by
  have met := l.connect_meets c now
  unfold exchange
  dsimp only
  split
  next fault result => exact met.failed result
  next result =>
    exact met.after result (kept_settle (LinkState.kept_begun _) _ _)

/-- Nobody is dialled unless the gate is open. -/
theorem connect_undialled (closed : l.state.gate now ≠ .free) (dial : Dial) :
    l.connect { c with dial } now = l.connect c now := by
  unfold connect
  split
  next => rfl
  next => rfl
  next gate => exact absurd gate closed

theorem exchange_undialled (closed : l.state.gate now ≠ .free) (dial : Dial) (unit : UInt8)
    (pdu : Pdu) :
    l.exchange unit pdu { c with dial } now = l.exchange unit pdu c now := by
  unfold exchange
  rw [connect_undialled l c now closed]
  rfl

end TcpLink

namespace RtuLink

variable (l : RtuLink) (c : Conduct) (now : Nanos)

theorem connect_meets : (l.connect c now).Meets state l c now := by
  unfold connect
  split
  next gate => exact .up gate (.refl _)
  next remaining gate => exact .held remaining gate rfl
  next gate =>
    dsimp only
    split
    next => exact .made gate (.refl _)
    next text _ => exact .missed _ gate rfl rfl

theorem kept_settle {l : RtuLink} {s : LinkState} (h : s.Kept l.state) (r : Received) :
    s.Kept (l.settle r).1.state := by
  refine h.trans ?_
  unfold settle
  dsimp only
  split
  next => exact LinkState.kept_answered _
  next fault _ =>
    split
    next => exact ⟨rfl, rfl, rfl, fun up => by cases up⟩
    next => exact ⟨rfl, rfl, rfl, id⟩

theorem exchange_meets (slave : UInt8) (pdu : Pdu) :
    (l.exchange slave pdu c now).Meets state l c now := by
  have met := l.connect_meets c now
  unfold exchange
  dsimp only
  split
  next fault result => exact met.failed result
  next result =>
    exact met.after result (kept_settle (LinkState.kept_begun _) _)

/-- Nobody is dialled unless the gate is open. -/
theorem connect_undialled (closed : l.state.gate now ≠ .free) (dial : Dial) :
    l.connect { c with dial } now = l.connect c now := by
  unfold connect
  split
  next => rfl
  next => rfl
  next gate => exact absurd gate closed

theorem exchange_undialled (closed : l.state.gate now ≠ .free) (dial : Dial) (slave : UInt8)
    (pdu : Pdu) :
    l.exchange slave pdu { c with dial } now = l.exchange slave pdu c now := by
  unfold exchange
  rw [connect_undialled l c now closed]
  rfl

end RtuLink

/-! ## Runs -/

/-- What is asked of a link. -/
inductive LinkCall where
  | connect
  | read (batch : Batch)
  | write (point : Point) (words : List UInt16)
  | close

/-- Whether the call goes over the link. -/
def LinkCall.needsLink : LinkCall → Bool
  | connect => true
  | read batch => batch.request.isOk
  | write point words => (WriteRequest.forPoint point words).isOk
  | close => false

/-- A call at a time, and how the other side treats it. -/
structure LinkTurn where
  call : LinkCall
  conduct : Conduct
  now : Nanos

/-- What a call leaves behind, without the values that it gives. -/
def Called.unvalued {L α : Type} (e : Called L α) : Called L Unit :=
  { e with result := e.result.map fun _ => () }

theorem Called.Meets.unvalued {L α : Type} {state : L → LinkState} {l : L} {c : Conduct}
    {now : Nanos} {e : Called L α} (h : e.Meets state l c now) : e.unvalued.Meets state l c now := by
  cases h with
  | up gate kept => exact .up gate kept
  | held remaining gate whole =>
    subst whole
    exact .held remaining gate rfl
  | made gate kept => exact .made gate kept
  | missed fault gate missed result =>
    exact .missed fault gate missed (by rw [Called.unvalued, result]; rfl)

namespace ChannelLink

theorem meets_lift {L α : Type} {state : L → LinkState} {wrap : L → ChannelLink}
    (same : ∀ l, (wrap l).state = state l) {l : L} {c : Conduct} {now : Nanos} {e : Called L α}
    (h : e.Meets state l c now) : (lift wrap e).Meets ChannelLink.state (wrap l) c now := by
  cases h with
  | up gate kept => exact .up (by rwa [same]) (by rw [same]; exact (same e.link).symm ▸ kept)
  | held remaining gate whole =>
    subst whole
    exact .held remaining (by rwa [same]) rfl
  | made gate kept => exact .made (by rwa [same]) (by rw [same]; exact (same e.link).symm ▸ kept)
  | missed fault gate missed result =>
    exact .missed fault (by rwa [same]) (by rw [same]; exact (same e.link).trans missed) result

/-- Asks something of a link. -/
def turn (l : ChannelLink) (t : LinkTurn) : Called ChannelLink Unit :=
  match t.call with
  | .connect => l.connect t.conduct t.now
  | .read batch => (l.read batch t.conduct t.now).unvalued
  | .write point words => l.write point words t.conduct t.now
  | .close => ⟨.ok (), l.close, t.conduct.wire, t.now, []⟩

/-- The link after some calls. -/
def after (l : ChannelLink) (turns : List LinkTurn) : ChannelLink :=
  turns.foldl (fun l t => (l.turn t).link) l

/-- The attempt that a call makes, by the counters. -/
def attempt? (l : ChannelLink) (t : LinkTurn) : Option LinkAttempt :=
  let e := l.turn t
  if l.state.stats.connects < e.link.state.stats.connects then some .made
  else if l.state.stats.connectFailures < e.link.state.stats.connectFailures then
    some (.missed e.now)
  else none

/-- The attempts that some calls make. -/
def attempts (l : ChannelLink) : List LinkTurn → List LinkAttempt
  | [] => []
  | t :: rest => (l.attempt? t).toList ++ (l.turn t).link.attempts rest

variable {l : ChannelLink} {t : LinkTurn}

theorem turn_meets (needs : t.call.needsLink = true) :
    (l.turn t).Meets ChannelLink.state l t.conduct t.now := by
  obtain ⟨call, conduct, now⟩ := t
  cases call with
  | connect =>
    cases l with
    | tcp l => exact meets_lift (fun _ => rfl) (l.connect_meets conduct now)
    | rtu l => exact meets_lift (fun _ => rfl) (l.connect_meets conduct now)
  | read batch =>
    refine Called.Meets.unvalued ?_
    cases request : batch.request with
    | error fault => simp [LinkCall.needsLink, request, Except.isOk, Except.toBool] at needs
    | ok pdu =>
      cases l with
      | tcp l =>
        refine meets_lift (fun _ => rfl) ?_
        rw [TcpLink.read, request]
        exact (l.exchange_meets ..).parsed (fun _ _ => LinkState.kept_blamed _) _
      | rtu l =>
        refine meets_lift (fun _ => rfl) ?_
        rw [RtuLink.read, request]
        exact (l.exchange_meets ..).parsed (fun _ _ => LinkState.kept_blamed _) _
  | write point words =>
    cases request : WriteRequest.forPoint point words with
    | error fault => simp [LinkCall.needsLink, request, Except.isOk, Except.toBool] at needs
    | ok request' =>
      cases l with
      | tcp l =>
        refine meets_lift (fun _ => rfl) ?_
        rw [TcpLink.write, request]
        exact (l.exchange_meets ..).parsed (fun _ _ => LinkState.kept_blamed _) _
      | rtu l =>
        refine meets_lift (fun _ => rfl) ?_
        rw [RtuLink.write, request]
        exact (l.exchange_meets ..).parsed (fun _ _ => LinkState.kept_blamed _) _
  | close => cases needs

theorem kept_close (l : ChannelLink) : l.state.Kept l.close.state := by
  cases l with
  | tcp l =>
    simp only [close, TcpLink.close, state]
    split
    next => exact LinkState.kept_dropped
    next => exact .refl _
  | rtu l => exact LinkState.kept_dropped

/-- A call that does not go over the link makes no attempt, and nobody is dialled. -/
theorem turn_aside (aside : t.call.needsLink = false) :
    l.state.Kept (l.turn t).link.state ∧
      ∀ dial, l.turn { t with conduct := { t.conduct with dial } } = l.turn t := by
  obtain ⟨call, conduct, now⟩ := t
  cases call with
  | connect => cases aside
  | read batch =>
    cases request : batch.request with
    | ok pdu => simp [LinkCall.needsLink, request, Except.isOk, Except.toBool] at aside
    | error fault =>
      cases l with
      | tcp l =>
        simp only [turn, read, TcpLink.read, request]
        exact ⟨.refl _, fun _ => rfl⟩
      | rtu l =>
        simp only [turn, read, RtuLink.read, request]
        exact ⟨.refl _, fun _ => rfl⟩
  | write point words =>
    cases request : WriteRequest.forPoint point words with
    | ok pdu => simp [LinkCall.needsLink, request, Except.isOk, Except.toBool] at aside
    | error fault =>
      cases l with
      | tcp l =>
        simp only [turn, write, TcpLink.write, request]
        exact ⟨.refl _, fun _ => rfl⟩
      | rtu l =>
        simp only [turn, write, RtuLink.write, request]
        exact ⟨.refl _, fun _ => rfl⟩
  | close => exact ⟨l.kept_close, fun dial => rfl⟩

/-- Nobody is dialled unless the gate is open. -/
theorem turn_undialled (closed : l.state.gate t.now ≠ .free) (dial : Dial) :
    l.turn { t with conduct := { t.conduct with dial } } = l.turn t := by
  obtain ⟨call, conduct, now⟩ := t
  cases call with
  | connect =>
    cases l with
    | tcp l => simp only [turn, connect, l.connect_undialled conduct now closed]
    | rtu l => simp only [turn, connect, l.connect_undialled conduct now closed]
  | read batch =>
    cases l with
    | tcp l => simp only [turn, read, TcpLink.read, l.exchange_undialled conduct now closed]; rfl
    | rtu l => simp only [turn, read, RtuLink.read, l.exchange_undialled conduct now closed]; rfl
  | write point words =>
    cases l with
    | tcp l => simp only [turn, write, TcpLink.write, l.exchange_undialled conduct now closed]; rfl
    | rtu l => simp only [turn, write, RtuLink.write, l.exchange_undialled conduct now closed]; rfl
  | close => rfl

/-- What a call does to the gate. -/
inductive Tried (l : ChannelLink) (t : LinkTurn) : Option LinkAttempt → Prop
  | kept : (t.call.needsLink = true → l.state.gate t.now ≠ .free) →
    l.state.Kept (l.turn t).link.state → Tried l t none
  | made : t.call.needsLink = true → l.state.gate t.now = .free →
    l.state.made.Kept (l.turn t).link.state → Tried l t (some .made)
  | missed : t.call.needsLink = true → l.state.gate t.now = .free →
    (l.turn t).link.state = l.state.missed (l.turn t).now →
    Tried l t (some (.missed (l.turn t).now))

theorem tried (l : ChannelLink) (t : LinkTurn) : Tried l t (l.attempt? t) := by
  have unattempted (kept : l.state.Kept (l.turn t).link.state) : l.attempt? t = none := by
    simp [attempt?, kept.connects, kept.connectFailures]
  cases needs : t.call.needsLink with
  | false =>
    have kept := (turn_aside (l := l) needs).1
    rw [unattempted kept]
    exact .kept (fun needed => absurd (needs.symm.trans needed) Bool.false_ne_true) kept
  | true =>
    cases turn_meets (l := l) needs with
    | up gate kept =>
      rw [unattempted kept]
      exact .kept (fun _ free => by cases gate.symm.trans free) kept
    | held remaining gate whole =>
      have kept : l.state.Kept (l.turn t).link.state := by
        rw [whole]
        exact .refl _
      rw [unattempted kept]
      exact .kept (fun _ free => by cases gate.symm.trans free) kept
    | made gate kept =>
      have attempt : l.attempt? t = some .made := by
        simp [attempt?, kept.connects, LinkState.made]
      rw [attempt]
      exact .made needs gate kept
    | missed fault gate missed _ =>
      have attempt : l.attempt? t = some (.missed (l.turn t).now) := by
        simp [attempt?, missed, LinkState.missed]
      rw [attempt]
      exact .missed needs gate missed

open LinkAttempt (misses)

section

variable {initial max : Nanos} {earlier : List LinkAttempt}

theorem counts_turn (first : initial < 2 ^ 53) (greatest : max < 2 ^ 53)
    (h : l.state.Counts initial max (misses earlier)) (t : LinkTurn) :
    (l.turn t).link.state.Counts initial max (misses (earlier ++ (l.attempt? t).toList)) := by
  generalize tries : l.attempt? t = attempt
  have tried := tries ▸ l.tried t
  cases tried with
  | kept _ kept =>
    rw [Option.toList_none, List.append_nil]
    exact h.kept kept
  | made _ _ kept =>
    rw [Option.toList_some, LinkAttempt.misses_concat_made]
    exact h.made.kept kept
  | missed _ free missed =>
    rw [Option.toList_some, LinkAttempt.misses_concat_missed, missed]
    exact h.missed first greatest (h.gate_free_iff.mp free).1 _

theorem counts_after (first : initial < 2 ^ 53) (greatest : max < 2 ^ 53)
    (h : l.state.Counts initial max (misses earlier)) (turns : List LinkTurn) :
    (l.after turns).state.Counts initial max (misses (earlier ++ l.attempts turns)) := by
  induction turns generalizing l earlier with
  | nil =>
    rw [attempts, List.append_nil]
    exact h
  | cons t rest ih =>
    rw [attempts, ← List.append_assoc]
    exact ih (counts_turn first greatest h t)

/-- What a call does after attempts that failed at these times since the last one that made the
link. -/
structure Spaced (initial max : Nanos) (misses : List Nanos) (l : ChannelLink) (t : LinkTurn) :
    Prop where
  /-- An attempt is made only while the link is down, and not before it is due. -/
  attempted : ∀ attempt, l.attempt? t = some attempt →
    l.state.isUp = false ∧ ∀ due, due? initial max misses = some due → due ≤ t.now
  /-- A call that comes before that is told how long to wait, and the link stays as it is. -/
  held : t.call.needsLink = true → ∀ due, due? initial max misses = some due → t.now < due →
    l.turn t = .unsent l t.conduct t.now (.backoff (wholeMillis (due - t.now)))
  /-- A call that comes then or later makes an attempt. -/
  allowed : t.call.needsLink = true → l.state.isUp = false →
    (∀ due, due? initial max misses = some due → due ≤ t.now) → (l.attempt? t).isSome
  /-- The link keeps the count and the time. -/
  counted : l.state.reconnect.failures = min misses.length maxFailures ∧
    l.state.reconnect.nextAttempt = due? initial max misses
  made : l.attempt? t = some .made → (l.turn t).link.state.reconnect.failures = 0 ∧
    (l.turn t).link.state.reconnect.nextAttempt = none
  /-- A failure is put down to the time at which the call ends. -/
  missed : ∀ time, l.attempt? t = some (.missed time) → time = (l.turn t).now ∧
    (l.turn t).link.state.reconnect.nextAttempt =
      some (time + min max (initial * 2 ^ min misses.length 64))
  /-- Without an attempt nothing is counted and nobody is dialled. -/
  kept : l.attempt? t = none → (l.turn t).link.state.reconnect = l.state.reconnect ∧
    ∀ dial, l.turn { t with conduct := { t.conduct with dial } } = l.turn t

/-- A link that began down attempts to be made only when it is needed, is down, and the pause after
the last failure is over, which doubles with each failure in a row. -/
theorem attempts_spaced {l : ChannelLink} (fresh : l.state = .down initial max)
    (first : initial < 2 ^ 53) (greatest : max < 2 ^ 53) (past : List LinkTurn) (t : LinkTurn) :
    Spaced initial max (misses (l.attempts past)) (l.after past) t := by
  have start : l.state.Counts initial max (misses []) := by
    rw [fresh]
    exact ⟨rfl, fun up => by cases up⟩
  have counts : (l.after past).state.Counts initial max (misses (l.attempts past)) :=
    counts_after first greatest start past
  have next := counts_turn first greatest counts t
  have tried := (l.after past).tried t
  refine ⟨?_, ?_, ?_, ?_, ?_, ?_, ?_⟩
  · intro attempt some
    rw [some] at tried
    have free : (l.after past).state.gate t.now = .free := by
      cases tried with
      | made _ free _ => exact free
      | missed _ free _ => exact free
    exact counts.gate_free_iff.mp free
  · intro needs due known early
    have held := counts.gate_of_lt known early
    cases turn_meets needs with
    | up gate _ => cases held.symm.trans gate
    | made gate _ => cases held.symm.trans gate
    | missed _ gate _ _ => cases held.symm.trans gate
    | held remaining gate whole =>
      cases held.symm.trans gate
      exact whole
  · intro needs down passed
    have free := counts.gate_free_iff.mpr ⟨down, passed⟩
    generalize (l.after past).attempt? t = attempt at tried ⊢
    cases tried with
    | kept closed _ => exact absurd free (closed needs)
    | made => rfl
    | missed => rfl
  · rw [counts.reconnect]
    exact ⟨rfl, rfl⟩
  · intro some
    rw [some, Option.toList_some, LinkAttempt.misses_concat_made] at next
    rw [next.reconnect]
    exact ⟨Nat.zero_min _, rfl⟩
  · intro time some
    rw [some, Option.toList_some, LinkAttempt.misses_concat_missed] at next
    rw [some] at tried
    cases tried
    rw [next.reconnect]
    exact ⟨rfl, rfl⟩
  · intro none
    rw [none] at tried
    cases tried with
    | kept closed kept =>
      refine ⟨kept.reconnect, ?_⟩
      cases needs : t.call.needsLink with
      | false => exact (turn_aside needs).2
      | true => exact turn_undialled (closed needs)

end

/-- A link with a first pause of one second. -/
def patient : ChannelLink :=
  .tcp { address := "127.0.0.1:502", connectTimeout := seconds 1, timeout := seconds 1
         state := .down (seconds 1) (seconds 60) }

/-- A call that comes at a time, to a host that refuses or not. -/
def patientTurn (call : LinkCall) (refusal : Option String) (now : Nanos) : LinkTurn :=
  { call, conduct := { dial := { refusal, duration := millis 10 } }, now }

/-- A connect and a read that fail, with a close between them. -/
def patientPast : List LinkTurn :=
  [patientTurn .connect (some "refused") 0, patientTurn .close none (millis 20),
    patientTurn (.read {}) (some "refused") (millis 1010)]

/-- Two attempts have failed, and a call that comes before the third one is due is held back. -/
theorem patient_attempts_spaced :
    Spaced (seconds 1) (seconds 60) (misses (patient.attempts patientPast))
      (patient.after patientPast) (patientTurn .connect none (millis 3000)) ∧
    misses (patient.attempts patientPast) = [millis 1020, millis 10] ∧
    due? (seconds 1) (seconds 60) (misses (patient.attempts patientPast)) = some (millis 3020) ∧
    ((patient.after patientPast).turn (patientTurn .connect none (millis 3000))).result =
      .error (.backoff 20) ∧
    (patient.after patientPast).attempt? (patientTurn .connect none (millis 3020)) = some .made :=
  ⟨attempts_spaced rfl (by decide) (by decide) _ _, by decide +kernel, by decide +kernel,
    by decide +kernel, by decide +kernel⟩

end ChannelLink

end Fieldbus
