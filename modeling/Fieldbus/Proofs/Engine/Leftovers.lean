import Fieldbus.Proofs.Activity.Interleaving
import Fieldbus.Proofs.Command.Handle
import Fieldbus.Proofs.Engine.Estate
import Fieldbus.Proofs.Engine.Registry
import Fieldbus.Proofs.Poll.Publication

/-!
# What is left of channels that do not run

An engine reloads again and again while poll loops and an executor work.  In the end it has log
policies of the channels that run and of those that it abandoned (`reloads_leave`).  The store holds
values of these too, and of a channel that a command was written to after it was forgotten.

A channel is abandoned if a reload stops it to start it again and there is no link for it then.
`abandoned_left` is such a run.
-/

namespace Fieldbus

open Ensemble (Run eventsOf mem_eventsOf eventsOf_append eventsOf_cons_self touches)

/-! ## Who takes part -/

/-- Those who take part in the work of an engine. -/
inductive Hand where
  | engine
  | executor
  | poller (link : LinkId)
deriving DecidableEq

/-- What the activity of a hand ends with. -/
@[reducible] def Hand.Value (α : Type) : Hand → Type
  | .engine => Roster
  | .executor => Unit
  | .poller _ => Poll.Poller α

/-- A poll loop that can be started. -/
structure PollLoop (α : Type) where
  channel : Channel
  cycles : Nat
  poller : Poll.Poller α

section

variable {α : Type} [DelayNumber α]

/-- An engine that will reload to these lists, its executor, and the poll loops of the links. -/
def operating (lists : List (List Channel)) (fuel : Nat) (loops : LinkId → PollLoop α) :
    Ensemble (Hand.Value α) where
  tasks
    | .engine => Roster.reloads lists {}
    | .executor => Command.serve fuel
    | .poller link => Poll.run (loops link).channel link (loops link).cycles (loops link).poller
  store := {}

/-- Whether an event is of a poll loop that was not started, or that was joined since. -/
def Estate.isStray (loops : LinkId → PollLoop α) (s : Estate) : Hand → Bool
  | .poller link => ((loops link).channel, link) ∉ s.loops
  | _ => false

/-- Each poll loop takes its steps between its start and its join. -/
def Polls (loops : LinkId → PollLoop α) : Estate → List (Hand × Event) → Prop
  | _, [] => True
  | s, (hand, e) :: rest => s.isStray loops hand = false ∧ Polls loops (s.after e) rest

instance decidablePolls (loops : LinkId → PollLoop α) :
    (s : Estate) → (history : List (Hand × Event)) → Decidable (Polls loops s history)
  | _, [] => inferInstanceAs (Decidable True)
  | s, (_, e) :: rest =>
    have := decidablePolls loops (s.after e) rest
    inferInstanceAs (Decidable (_ ∧ _))

omit [DelayNumber α] in
theorem Polls.loop {loops : LinkId → PollLoop α} {s : Estate} {before after : List (Hand × Event)}
    {link : LinkId} {e : Event} (h : Polls loops s (before ++ (.poller link, e) :: after)) :
    ((loops link).channel, link) ∈ (s.afterAll (before.map Prod.snd)).loops := by
  induction before generalizing s with
  | nil => simpa [Estate.isStray] using h.1
  | cons first rest ih => exact ih h.2

/-- A run of an engine with its executor and its poll loops. -/
structure Operated (lists : List (List Channel)) (fuel : Nat) (loops : LinkId → PollLoop α)
    (history : List (Hand × Event)) (s : Ensemble (Hand.Value α)) : Prop where
  distinct : ∀ channels ∈ lists, (channels.map Channel.id).Nodup
  run : Run (fun _ => True) (operating lists fuel loops) history s
  finds : ({} : Ledger).Finds (history.map Prod.snd)
  polls : Polls loops {} history

/-- The executor found the channel, which then was forgotten, published a value at the key, and the
channel was not forgotten again. -/
def IsLate (key : StoreKey) (history : List (Hand × Event)) : Prop :=
  ∃ earlier handle begun writes later,
    history = earlier ++ (.executor, ⟨.find key.channel, some handle⟩) ::
      (begun ++ (.executor, ⟨.publish writes, ()⟩) :: later) ∧
    touches key (.publish writes) = true ∧ (.engine, ⟨.forget key.channel, ()⟩) ∈ begun ∧
    (.engine, ⟨.forget key.channel, ()⟩) ∉ later

theorem Estate.after_of_isEngine {e : Event} (other : e.step.isEngine = false) (s : Estate) :
    s.after e = s := by
  obtain ⟨step, answer⟩ := e
  cases step with
  | start _ _ _ | setPlan _ _ | cancel _ | join _ | register _ | unregister _ | setPolicy _ _
  | dropPolicy _ | forget _ => cases other
  | _ => rfl

namespace Operated

variable {lists : List (List Channel)} {fuel : Nat} {loops : LinkId → PollLoop α}
  {history earlier later : List (Hand × Event)} {s : Ensemble (Hand.Value α)}

theorem notEngine (h : Operated lists fuel loops history s) {e : Hand × Event}
    (member : e ∈ history) (other : e.1 ≠ .engine) : e.2.step.isEngine = false := by
  obtain ⟨i, e⟩ := e
  have own := mem_eventsOf.mpr member
  have performs := h.run.performs i
  cases i with
  | engine => exact absurd rfl other
  | poller _ => exact (Poll.run_notEngine ..).of_performs performs e own
  | executor => exact (Command.serve_notEngine fuel).of_performs performs e own

/-- The estate is the engine's own work. -/
theorem estate_eq (h : Operated lists fuel loops history s) (split : history = earlier ++ later) :
    Estate.of (earlier.map Prod.snd) = .of (eventsOf .engine earlier) := by
  refine Ensemble.foldl_of_party (fun e he other s => ?_) _
  exact Estate.after_of_isEngine (h.notEngine (split ▸ List.mem_append_left _ he) other) s

theorem allowed (h : Operated lists fuel loops history s) {e : Event}
    (split : history = earlier ++ (.engine, e) :: later) :
    (Estate.of (eventsOf .engine earlier)).Allows e := by
  have run := h.run
  rw [split] at run
  exact run.may (Roster.reloads_accords .empty h.distinct)

theorem sound (h : Operated lists fuel loops history s) (split : history = earlier ++ later) :
    (Estate.of (earlier.map Prod.snd)).Sound := by
  rw [h.estate_eq split]
  refine Estate.Sound.empty.afterAll fun before e since own => ?_
  obtain ⟨u, v, rfl, rfl, -⟩ := Ensemble.split_of_eventsOf own
  exact h.allowed (by rw [split, List.append_assoc]; rfl)

/-- What is kept stays until the engine forgets it. -/
theorem kept_since (h : Operated lists fuel loops history s) {id : UInt16}
    {since : List (Hand × Event)} (split : history = earlier ++ (since ++ later))
    (kept : id ∈ (Estate.of (earlier.map Prod.snd)).kept)
    (keeps : (.engine, ⟨.forget id, ()⟩) ∉ since) :
    id ∈ (Estate.of ((earlier ++ since).map Prod.snd)).kept := by
  rw [List.map_append, Estate.of, Estate.afterAll_append]
  refine Estate.mem_kept_afterAll kept fun e he same => ?_
  obtain ⟨⟨i, e⟩, member, rfl⟩ := List.mem_map.mp he
  obtain ⟨step, answer⟩ := e
  obtain rfl : step = .forget id := same
  by_cases engine : i = .engine
  · exact keeps (engine ▸ member)
  · have foreign := h.notEngine (split ▸ List.mem_append_right _ (List.mem_append_left _ member))
      engine
    cases foreign

/-- A poll loop publishes values of a channel that is kept. -/
theorem kept_of_polled (h : Operated lists fuel loops history s) {key : StoreKey}
    {writes : List StoreWrite} {link : LinkId}
    (split : history = earlier ++ (.poller link, ⟨.publish writes, ()⟩) :: later)
    (touched : touches key (.publish writes) = true) :
    key.channel ∈ (Estate.of (earlier.map Prod.snd)).kept := by
  have run := h.run
  rw [split] at run
  obtain ⟨readings, rfl, -⟩ : Poll.May (loops link).channel link (eventsOf (.poller link) earlier)
      ⟨.publish writes, ()⟩ := run.may (Poll.run_ensures ..)
  obtain ⟨value, set⟩ := Option.isSome_iff_exists.mp touched
  obtain ⟨own, -⟩ := reading_of_valueOf?_cycleWrites set
  rw [← own]
  have polls := h.polls
  rw [split] at polls
  exact (h.sound split).polled _ polls.loop

/-- An executor publishes values of a channel that is kept, or that was forgotten since it was
found. -/
theorem kept_or_late (h : Operated lists fuel loops history s) {key : StoreKey}
    {writes : List StoreWrite}
    (split : history = earlier ++ (.executor, ⟨.publish writes, ()⟩) :: later)
    (touched : touches key (.publish writes) = true)
    (keeps : (.engine, ⟨.forget key.channel, ()⟩) ∉ later) :
    key.channel ∈ (Estate.of (earlier.map Prod.snd)).kept ∨ IsLate key history := by
  have run := h.run
  rw [split] at run
  obtain ⟨handle, p, words, commanded, ⟨b, id, prepared, reported, past, -, -⟩, rfl⟩ :
      Command.Bound (eventsOf .executor earlier) ⟨.publish writes, ()⟩ :=
    run.may (Command.serve_bound fuel [])
  have named : (⟨handle.channel.id, p.category, p.id⟩ : StoreKey) = key := by
    by_contra other
    simp [touches, valueOf?_ackWrite, other] at touched
  obtain ⟨u, v, rfl, -, -⟩ := Ensemble.split_of_eventsOf past
  -- The channel took commands when it was found, so it was kept then.
  have registered : (Estate.of (u.map Prod.snd)).registry.get? id = some handle := by
    have finds := h.finds
    rw [split, List.append_assoc, List.map_append] at finds
    rw [Estate.of, Estate.toLedger_afterAll]
    exact finds.found.symm
  have sound : (Estate.of (u.map Prod.snd)).Sound := h.sound (split.trans (List.append_assoc ..))
  have own : key.channel = id := by
    rw [← named]
    exact sound.own id handle registered
  subst own
  have kept := sound.registered _ handle registered
  by_cases forgotten : (.engine, ⟨.forget key.channel, ()⟩) ∈ v
  · refine .inr ⟨u, handle, v, _, later, ?_, touched, forgotten, keeps⟩
    rw [split, List.append_assoc, List.cons_append]
  · refine .inl (h.kept_since (split.trans (List.append_assoc ..)) kept ?_)
    simpa using forgotten

/-- What is stored is of a channel that is kept, or came late. -/
theorem kept_of_stored (h : Operated lists fuel loops history s) {key : StoreKey}
    (there : (s.store.get? key).isSome = true) :
    key.channel ∈ (Estate.of (history.map Prod.snd)).kept ∨ IsLate key history := by
  rcases h.run.stored_cases there with ⟨stored, -⟩ | ⟨earlier, i, writes, later, split, touched, quiet⟩
  · cases stored
  · have keeps : (.engine, ⟨.forget key.channel, ()⟩) ∉ later := fun member => quiet _ member rfl
    have kept : key.channel ∈ (Estate.of (earlier.map Prod.snd)).kept ∨ IsLate key history := by
      cases i with
      | engine => exact (h.allowed split).elim
      | poller link => exact .inl (h.kept_of_polled split touched)
      | executor => exact h.kept_or_late split touched keeps
    have whole : history = earlier ++ ((i, ⟨.publish writes, ()⟩) :: later ++ []) := by
      rw [List.append_nil, split]
    refine kept.imp_left fun kept => ?_
    rw [split]
    refine h.kept_since whole kept ?_
    simpa using keeps

theorem accords (h : Operated lists fuel loops history s) {roster : Roster}
    (through : s.tasks .engine = .done roster) :
    Accords roster (Remains.of lists) (.of (history.map Prod.snd)) := by
  have performs := h.run.performs .engine
  rw [through] at performs
  rw [h.estate_eq (List.append_nil history).symm]
  have empty : Accords {} (fun _ => .nothing) (.of []) := .empty
  exact performs.post (Roster.reloads_accords empty h.distinct) fun _ _ => trivial

end Operated

/-- After an engine's reloads the channels with a log policy are those that run and those that it
abandoned.  The store holds values of these channels, and of one that a command was under way to
when it was forgotten. -/
theorem reloads_leave {lists : List (List Channel)} {fuel : Nat} {loops : LinkId → PollLoop α}
    {history : List (Hand × Event)} {s : Ensemble (Hand.Value α)} {roster : Roster}
    (distinct : ∀ channels ∈ lists, (channels.map Channel.id).Nodup)
    (run : Run (fun _ => True) (operating lists fuel loops) history s)
    (finds : ({} : Ledger).Finds (history.map Prod.snd)) (polls : Polls loops {} history)
    (through : s.tasks .engine = .done roster) :
    (∀ id, (roster.get? id).isSome = true ↔ Remains.of lists id = .running) ∧
      (∀ id, ((Estate.of (history.map Prod.snd)).policies.get? id).isSome = true ↔
        (roster.get? id).isSome = true ∨ Remains.of lists id = .abandoned) ∧
      ∀ key, (s.store.get? key).isSome = true →
        (roster.get? key.channel).isSome = true ∨ Remains.of lists key.channel = .abandoned ∨
          IsLate key history := by
  have h : Operated lists fuel loops history s := ⟨distinct, run, finds, polls⟩
  have accords := h.accords through
  have left (id : UInt16) : Remains.of lists id ≠ .nothing ↔
      (roster.get? id).isSome = true ∨ Remains.of lists id = .abandoned := by
    rw [accords.running]
    cases Remains.of lists id <;> simp
  refine ⟨accords.running, fun id => (accords.policies id).trans (left id), fun key there => ?_⟩
  rcases h.kept_of_stored there with kept | late
  · exact ((left _).mp ((accords.kept _).mp kept)).imp_right .inl
  · exact .inr (.inr late)

end

/-! ## A channel without a link -/

/-- A gauge that runs, and then is to run over a serial line with nine data bits. -/
def gaugeLists : List (List Channel) :=
  [[gauge 1 100 0], [{ gauge 1 100 0 with medium := .rtu "/dev/ttyS0" 9600 9 1 .none }]]

def gaugeLoop : PollLoop Binary64 := ⟨gauge 1 100 0, 1, .ofChannel (gauge 1 100 0) (.ofNat 2)⟩

def gaugeAnswer : (step : Step) → step.Answer
  | .plan _ => { batches := groupPoints (gauge 1 100 0).limits (gauge 1 100 0).points }
  | .isConnected _ => true
  | .read .. => .ok [42]
  | _ => default

/-- The engine starts the gauge, the poll loop takes a cycle, and the engine stops it. -/
def gaugePlay : List (Hand × Event) × Ensemble (Hand.Value Binary64) :=
  Ensemble.play gaugeAnswer
    (List.replicate 3 .engine ++ List.replicate 40 (.poller 0) ++ List.replicate 6 .engine ++
      [.executor])
    (operating gaugeLists 0 fun _ => gaugeLoop)

theorem gauge_finds : ({} : Ledger).Finds (gaugePlay.1.map Prod.snd) := by
  decide +kernel

theorem gauge_polls : Polls (fun _ => gaugeLoop) {} gaugePlay.1 := by
  decide +kernel

theorem gauge_run : Run (fun _ => True) (operating gaugeLists 0 fun _ => gaugeLoop) gaugePlay.1
    gaugePlay.2 :=
  Ensemble.run_play (fun _ => trivial) _ _

theorem gauge_through :
    ∃ roster, gaugePlay.2.tasks .engine = .done roster ∧ roster.get? 1 = none := by
  have ended : (match gaugePlay.2.tasks .engine with
      | .done roster => (roster.get? 1).isNone
      | _ => false) = true := by
    decide +kernel
  generalize gaugePlay.2.tasks .engine = activity at ended
  cases activity with
  | done roster => exact ⟨roster, rfl, Option.isNone_iff_eq_none.mp ended⟩
  | step _ _ => cases ended

theorem gauge_reloads_leave :
    ∃ roster, gaugePlay.2.tasks .engine = .done roster ∧
      (((Estate.of (gaugePlay.1.map Prod.snd)).policies.get? 1).isSome = true ↔
        (roster.get? 1).isSome = true ∨ Remains.of gaugeLists 1 = .abandoned) := by
  obtain ⟨roster, through, -⟩ := gauge_through
  have distinct : ∀ channels ∈ gaugeLists, (channels.map Channel.id).Nodup := by decide +kernel
  exact ⟨roster, through,
    (reloads_leave distinct gauge_run gauge_finds gauge_polls through).2.1 1⟩

/-- All are through, the gauge does not run, and its log policy and its value stay. -/
theorem abandoned_left :
    Operated gaugeLists 0 (fun _ => gaugeLoop) gaugePlay.1 gaugePlay.2 ∧
      (∃ roster, gaugePlay.2.tasks .engine = .done roster ∧ roster.get? 1 = none) ∧
      (gaugePlay.2.tasks .executor).isDone = true ∧
      (gaugePlay.2.tasks (.poller 0)).isDone = true ∧
      ((Estate.of (gaugePlay.1.map Prod.snd)).policies.get? 1).isSome = true ∧
      (gaugePlay.2.store.get? ⟨1, .telemetry, 1⟩).map Sample.value = some (.ofNat 42) := by
  have distinct : ∀ channels ∈ gaugeLists, (channels.map Channel.id).Nodup := by decide +kernel
  exact ⟨⟨distinct, gauge_run, gauge_finds, gauge_polls⟩, gauge_through, by decide +kernel,
    by decide +kernel, by decide +kernel, by decide +kernel⟩

end Fieldbus
