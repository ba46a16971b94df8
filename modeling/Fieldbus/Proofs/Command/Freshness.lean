import Fieldbus.Proofs.Activity.Interleaving
import Fieldbus.Proofs.Command.Acknowledgement
import Fieldbus.Proofs.Poll.Publication

/-!
# Acknowledged values and the poll loop

A poll loop and an executor share the link of a channel and the store.  The loop reads a batch at
a time and publishes at the end of its cycle; the executor publishes as soon as a write is
acknowledged.  So the order of the exchanges is not the order of the publications.

`acknowledged_replaced` says what may replace an acknowledged value: what an exchange after the
write gave, or what the cycle that was under way at the write publishes at its end.  The second
may have been read before the write (`acknowledged_undone`), and is published at most once, since
the next publication of the loop belongs to a cycle that begins later.
-/

namespace Fieldbus

open Ensemble (Run eventsOf valueSet?)

/-! ## The two parties -/

/-- Those who share a link. -/
inductive Party where
  | poller
  | executor
deriving DecidableEq

/-- What the activity of a party ends with. -/
@[reducible] def Party.Value (α : Type) : Party → Type
  | .poller => Poll.Poller α
  | .executor => Unit

/-- A poll loop and an executor, before their first steps. -/
def sharing {α : Type} [DelayNumber α] (c : Channel) (link : LinkId) (cycles : Nat)
    (p : Poll.Poller α) (commands : Nat) (store : Store) : Ensemble (Party.Value α) :=
  { tasks := fun
      | .poller => Poll.run c link cycles p
      | .executor => Command.serve commands
    store }

/-- The event is an exchange over the link that gave the value of the key: by a read of its
point, or by a write that was acknowledged. -/
def Event.Gives (c : Channel) (link : LinkId) (key : StoreKey) (v : Binary64) (e : Event) :
    Prop :=
  (∃ r, e.Reads link r ∧ (⟨c.id, r.category, r.point⟩ : StoreKey) = key ∧ r.value = v) ∨
    ∃ p, e.Writes link p v ∧ (⟨c.id, p.category, p.id⟩ : StoreKey) = key

/-- Whether a step is an exchange with a device. -/
def Step.isExchange : Step → Bool
  | .read .. | .write .. => true
  | _ => false

/-- Between `before` and `after` a cycle was under way that had read the value of the key. -/
def CaughtInCycle (c : Channel) (link : LinkId) (key : StoreKey) (v : Binary64)
    (before after : List (Party × Event)) : Prop :=
  (∃ r, Poll.Gathered link (eventsOf .poller before) [r] ∧
      (⟨c.id, r.category, r.point⟩ : StoreKey) = key ∧ r.value = v) ∧
    ∀ e ∈ eventsOf .poller after, e.step.IsInner

section

variable {α : Type} [DelayNumber α] {c : Channel} {link : LinkId} {cycles commands : Nat}
  {p : Poll.Poller α} {store : Store} {s : Ensemble (Party.Value α)}
  {earlier later history : List (Party × Event)} {key : StoreKey} {v : Binary64}

theorem poller_may {e : Event}
    (run : Run (Registered c link) (sharing c link cycles p commands store)
      (earlier ++ (.poller, e) :: later) s) :
    Poll.May c link (eventsOf .poller earlier) e :=
  run.may (Poll.run_ensures cycles p)

theorem executor_may {e : Event}
    (run : Run (Registered c link) (sharing c link cycles p commands store)
      (earlier ++ (.executor, e) :: later) s) :
    Command.May c link (eventsOf .executor earlier) e :=
  run.may (Command.serve_ensures commands [])

theorem keeps_all
    (run : Run (Registered c link) (sharing c link cycles p commands store) history s) :
    ∀ e ∈ history, ∀ channel, e.2.step ≠ .forget channel := by
  intro e he channel forgets
  obtain ⟨earlier, later, rfl⟩ := List.append_of_mem he
  obtain ⟨party, step, answer⟩ := e
  cases forgets
  cases party with
  | poller => exact poller_may run
  | executor => exact executor_may run

/-! ## Publications -/

/-- What the executor leaves at a key of the channel is the value of its last write. -/
theorem wrote_of_valueSet? {e : Event}
    (run : Run (Registered c link) (sharing c link cycles p commands store)
      (earlier ++ (.executor, e) :: later) s)
    (set : valueSet? key e = some v) (here : key.channel = c.id) :
    ∃ (target : Point) (words : List UInt16) (commanded : Binary64),
      Command.Wrote link target words (.ok ()) (eventsOf .executor earlier) ∧
        v = target.acknowledged words commanded ∧
        (⟨c.id, target.category, target.id⟩ : StoreKey) = key ∧ ¬ e.step.IsInner := by
  have may := executor_may run
  obtain ⟨step, answer⟩ := e
  cases step with
  | publish writes =>
    obtain ⟨h, target, words, commanded, rfl, wrote, reached⟩ := may
    simp only [valueSet?, valueOf?_ackWrite] at set
    split at set
    next same =>
      cases set
      have own : h.channel.id = c.id := by
        rw [← here, ← same]
      rw [reached own] at wrote
      rw [own] at same
      exact ⟨target, words, commanded, wrote, rfl, same, id⟩
    next => cases set
  | _ => cases set

/-- What the poll loop leaves at a key was read after some time, or was caught in its cycle. -/
theorem published_by_poller {before after : List (Party × Event)} {e : Event}
    (run : Run (Registered c link) (sharing c link cycles p commands store)
      (before ++ after ++ (.poller, e) :: later) s)
    (set : valueSet? key e = some v) :
    (∃ x ∈ after, x.2.Gives c link key v) ∨ CaughtInCycle c link key v before after := by
  have may := poller_may run
  obtain ⟨step, answer⟩ := e
  cases step with
  | publish writes =>
    obtain ⟨readings, rfl, gathered⟩ := may
    obtain ⟨channel, r, hr, category, point, value⟩ := reading_of_valueOf?_cycleWrites set
    have place : (⟨c.id, r.category, r.point⟩ : StoreKey) = key := by
      rw [channel, category, point]
    rw [Ensemble.eventsOf_append] at gathered
    rcases gathered.split hr with ⟨x, hx, reads⟩ | ⟨begun, inner⟩
    · exact .inl ⟨_, Ensemble.mem_eventsOf.mp hx, .inl ⟨r, reads, place, value⟩⟩
    · exact .inr ⟨⟨r, begun, place, value⟩, inner⟩
  | _ => cases set

/-- Once a write is acknowledged, the store shows its value until it is replaced by one from a
later exchange, or by one from the cycle that was under way at the write. -/
theorem acknowledged_replaced {ack : Event} {value : Binary64}
    (run : Run (Registered c link) (sharing c link cycles p commands store)
      (earlier ++ (.executor, ack) :: later) s)
    (acked : valueSet? key ack = some value) (here : key.channel = c.id) :
    (s.store.get? key).map Sample.value =
        some ((lastValue? (fun e => valueSet? key e.2) later).getD value) ∧
      ∃ before write middle, earlier = before ++ (.executor, write) :: middle ∧
        write.Gives c link key value ∧ (∀ e ∈ eventsOf .executor middle, e.step.IsInner) ∧
        ∀ since publication rest v, later = since ++ publication :: rest →
          valueSet? key publication.2 = some v →
            (∃ e ∈ middle ++ (.executor, ack) :: since, e.2.Gives c link key v) ∨
              publication.1 = .poller ∧
                CaughtInCycle c link key v before (middle ++ (.executor, ack) :: since) := by
  obtain ⟨target, words, commanded, ⟨own, quiet, whole, inner⟩, rfl, rfl, loud⟩ :=
    wrote_of_valueSet? run acked here
  obtain ⟨before, middle, rfl, -, rfl⟩ := Ensemble.split_of_eventsOf whole
  have written : Event.Gives c link ⟨c.id, target.category, target.id⟩
      (target.acknowledged words commanded) ⟨.write link target words, .ok ()⟩ :=
    .inr ⟨target, ⟨rfl, rfl, rfl, commanded, rfl⟩, rfl⟩
  refine ⟨?_, before, _, middle, rfl, written, inner, ?_⟩
  · rw [run.get?_store _ (keeps_all run), lastValue?_append, lastValue?_cons, acked]
    cases lastValue? _ later <;> rfl
  · rintro since ⟨party, e⟩ rest v rfl set
    cases party with
    | poller =>
      have split : before ++ (.executor, ⟨.write link target words, .ok ()⟩) :: middle ++
          (.executor, ack) :: (since ++ (.poller, e) :: rest) =
          (before ++ [(.executor, ⟨.write link target words, .ok ()⟩)]) ++
            (middle ++ (.executor, ack) :: since) ++ (.poller, e) :: rest := by simp
      rw [split] at run
      refine (published_by_poller run set).imp_right fun caught => ⟨rfl, ?_⟩
      have foreign : eventsOf .poller [((.executor, ⟨.write link target words, .ok ()⟩) :
          Party × Event)] = [] := rfl
      simpa only [CaughtInCycle, Ensemble.eventsOf_append, foreign, List.append_nil] using caught
    | executor =>
      have split : before ++ (.executor, ⟨.write link target words, .ok ()⟩) :: middle ++
          (.executor, ack) :: (since ++ (.executor, e) :: rest) =
          (before ++ (.executor, ⟨.write link target words, .ok ()⟩) :: middle) ++
            (.executor, ack) :: since ++ (.executor, e) :: rest := by simp
      rw [split] at run
      obtain ⟨again, more, next, wrote, rfl, same, -⟩ := wrote_of_valueSet? run set here
      rw [Ensemble.eventsOf_append, Ensemble.eventsOf_cons_self] at wrote
      -- The acknowledgement stands between the two writes.
      rcases wrote.split with later | quiet
      · rw [← Ensemble.eventsOf_cons_self] at later
        have member := List.mem_append_right middle (Ensemble.mem_eventsOf.mp later)
        exact .inl ⟨_, member, .inr ⟨again, ⟨rfl, rfl, rfl, next, rfl⟩, same⟩⟩
      · exact absurd (quiet ack List.mem_cons_self) loud

end

/-! ## A publication after the acknowledgement -/

/-- A holding register that is polled and takes commands. -/
def setpoint : Point := { id := 1, address := 0, category := .adjustment, type := .uint16 }

/-- A channel with this point. -/
def contested : Channel :=
  { id := 7, name := "contested", medium := .tcp "127.0.0.1" 502, points := [setpoint] }

/-- The point holds three until seven is written to it. -/
def contestedAnswer : (step : Step) → step.Answer
  | .lock _ | .unlock _ | .close _ | .setState .. | .report .. | .sleep _ | .log _ | .publish _
  | .post _ | .announce _ | .discard _ | .setPlan .. | .cancel _ | .join _ | .register _
  | .unregister _ | .setPolicy .. | .dropPolicy _ | .forget _ => ()
  | .isConnected _ | .send _ => true
  | .isCancelled _ | .pause .. => false
  | .connect _ | .write .. => .ok ()
  | .read .. => .ok [3]
  | .frames _ | .stats _ => {}
  | .plan _ => { batches := groupPoints contested.limits contested.points }
  | .state _ => .polling
  | .now => 0
  | .clock => 0
  | .find channel => if channel = contested.id then some ⟨contested, 0⟩ else none
  | .subscribe command => ⟨command, 0⟩
  | .lookUp _ | .lastReport _ => none
  | .hear _ => .nothing
  | .countOutcomes => 0
  | .receive => some ⟨contested.id, setpoint.id, .ofNat 7, "set"⟩
  | .closeQueue => []
  | .start .. => 0

theorem contestedAnswer_registered (step : Step) :
    Registered contested 0 ⟨step, contestedAnswer step⟩ := by
  cases step with
  | find channel =>
    intro h found
    simp only [contestedAnswer] at found
    split at found
    next own =>
      cases found
      exact ⟨own.symm, fun _ => rfl⟩
    next => cases found
  | _ => trivial

/-- A poll loop and an executor that have not begun. -/
def contestedStart : Ensemble (Party.Value Binary64) :=
  sharing contested 0 1 (.ofChannel contested (.ofNat 2)) 1 {}

/-- The loop reads the point before the executor writes it, and publishes after the executor. -/
def contestedTurns : List Party :=
  List.replicate 15 .poller ++ List.replicate 13 .executor ++ [.poller]

/-- The history of these turns, and where they lead. -/
def contestedPlay : List (Party × Event) × Ensemble (Party.Value Binary64) :=
  Ensemble.play contestedAnswer contestedTurns contestedStart

theorem contested_run :
    Run (Registered contested 0) contestedStart contestedPlay.1 contestedPlay.2 :=
  Ensemble.run_play contestedAnswer_registered contestedTurns contestedStart

set_option maxRecDepth 8000 in
theorem contested_history :
    contestedPlay.1 = contestedPlay.1.take 22 ++
      (.executor, ⟨.write 0 setpoint [7], .ok ()⟩) :: (contestedPlay.1.drop 23).take 4 ++
      (.executor, ⟨.publish [ackWrite 7 setpoint (.ofNat 7)], ()⟩) ::
      [(.poller, contestedPlay.1[28].2)] := rfl

/-- Seven is written and acknowledged, and three is shown in the end, although no exchange came
after the write. -/
theorem acknowledged_undone :
    ∃ before middle publication s,
      Run (Registered contested 0) contestedStart
          (before ++ (.executor, ⟨.write 0 setpoint [7], .ok ()⟩) :: middle ++
            (.executor, ⟨.publish [ackWrite 7 setpoint (.ofNat 7)], ()⟩) ::
            [(.poller, publication)]) s ∧
        (∀ e ∈ middle ++ [(.poller, publication)], e.2.step.isExchange = false) ∧
        (s.store.get? ⟨7, .adjustment, 1⟩).map Sample.value = some (.ofNat 3) := by
  refine ⟨_, _, _, _, contested_history ▸ contested_run, ?_, ?_⟩
  · decide +kernel
  · decide +kernel

/-- The three that replaces seven here. -/
theorem contested_acknowledged_replaced :
    ∃ earlier publication,
      Run (Registered contested 0) contestedStart
          (earlier ++ (.executor, ⟨.publish [ackWrite 7 setpoint (.ofNat 7)], ()⟩) ::
            [(.poller, publication)]) contestedPlay.2 ∧
        valueSet? ⟨7, .adjustment, 1⟩ publication = some (.ofNat 3) ∧
        ∃ before write middle, earlier = before ++ (.executor, write) :: middle ∧
          write.Gives contested 0 ⟨7, .adjustment, 1⟩ (.ofNat 7) ∧
          ((∃ e ∈ middle ++ [(.executor, ⟨.publish [ackWrite 7 setpoint (.ofNat 7)], ()⟩)],
              e.2.Gives contested 0 ⟨7, .adjustment, 1⟩ (.ofNat 3)) ∨
            CaughtInCycle contested 0 ⟨7, .adjustment, 1⟩ (.ofNat 3) before
              (middle ++ [(.executor, ⟨.publish [ackWrite 7 setpoint (.ofNat 7)], ()⟩)])) := by
  have run := contested_run
  rw [contested_history] at run
  have acked : valueSet? ⟨7, .adjustment, 1⟩
      ⟨.publish [ackWrite 7 setpoint (.ofNat 7)], ()⟩ = some (.ofNat 7) := by decide +kernel
  have set : valueSet? ⟨7, .adjustment, 1⟩ contestedPlay.1[28].2 = some (.ofNat 3) := by
    decide +kernel
  obtain ⟨-, before, write, middle, split, gives, -, replaced⟩ :=
    acknowledged_replaced run acked rfl
  refine ⟨_, _, run, set, before, write, middle, split, gives, ?_⟩
  exact (replaced [] _ [] _ rfl set).imp_right And.right

end Fieldbus
