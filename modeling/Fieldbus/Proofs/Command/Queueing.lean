import Fieldbus.Command.Queue
import Fieldbus.Proofs.Activity.Trace

/-!
# The queue and the board in a history

A history says what became of the queue: `CommandQueue.Serves` relates the queue before it to the
queue behind it, if each answer at the queue is the queue's own and nobody goes on who has to wait.
Cancellation may come between any two events.

What has entered the queue has left it in the same order, but for what is still queued
(`CommandQueue.Serves.fifo`), and nothing is queued behind a close
(`CommandQueue.Serves.items_of_closed`).

The board shows the last status that was put on it (`Board.status?_after`).
-/

namespace Fieldbus

/-! ## The queue -/

/-- Whether a step is one at the queue. -/
def Step.isQueueing : Step → Bool
  | .send _ | .receive | .closeQueue => true
  | _ => false

namespace CommandQueue

/-- An event takes the queue to another one. -/
inductive Take : CommandQueue → Event → CommandQueue → Prop
  /-- A command is sent by somebody who need not wait. -/
  | sent {q : CommandQueue} {c : Command} :
    q.canSend = true → Take q ⟨.send c, (q.send c).1⟩ (q.send c).2
  /-- The next command is taken, unless there will be none. -/
  | received {q : CommandQueue} :
    q.canReceive = true → Take q ⟨.receive, q.receive.1⟩ q.receive.2
  /-- The queue is closed, and what is on it is taken. -/
  | closed {q : CommandQueue} : Take q ⟨.closeQueue, q.close.1⟩ q.close.2
  /-- The event is not one at the queue. -/
  | aside {q : CommandQueue} {e : Event} : e.step.isQueueing = false → Take q e q

/-- Events take the queue to another one. -/
inductive Serves : CommandQueue → List Event → CommandQueue → Prop
  /-- Nothing yet. -/
  | nil {q : CommandQueue} : Serves q [] q
  /-- One event, and the rest. -/
  | cons {q q' q'' : CommandQueue} {e : Event} {events : List Event} :
    Take q e q' → Serves q' events q'' → Serves q (e :: events) q''
  /-- The executor is cancelled. -/
  | cancelled {q q' : CommandQueue} {events : List Event} :
    Serves { q with isCancelled := true } events q' → Serves q events q'
  /-- Nobody is left who could submit. -/
  | unfed {q q' : CommandQueue} {events : List Event} :
    Serves { q with isFed := false } events q' → Serves q events q'

/-- The queue after events, if all of them are its own and nothing else happens to it. -/
def replay? (q : CommandQueue) : List Event → Option CommandQueue
  | [] => some q
  | ⟨.send c, taken⟩ :: rest =>
    if q.canSend = true ∧ (q.send c).1 = taken then (q.send c).2.replay? rest else none
  | ⟨.receive, next⟩ :: rest =>
    if q.canReceive = true ∧ q.receive.1 = next then q.receive.2.replay? rest else none
  | ⟨.closeQueue, left⟩ :: rest => if q.close.1 = left then q.close.2.replay? rest else none
  | _ :: rest => q.replay? rest

theorem serves_of_replay? {q q' : CommandQueue} {events : List Event}
    (h : q.replay? events = some q') : q.Serves events q' := by
  induction events generalizing q with
  | nil =>
    cases h
    exact .nil
  | cons e rest ih =>
    obtain ⟨step, answer⟩ := e
    cases step with
    | send c =>
      simp only [replay?] at h
      split at h
      next own =>
        obtain ⟨room, rfl⟩ := own
        exact .cons (.sent room) (ih h)
      next => cases h
    | receive =>
      simp only [replay?] at h
      split at h
      next own =>
        obtain ⟨ready, rfl⟩ := own
        exact .cons (.received ready) (ih h)
      next => cases h
    | closeQueue =>
      simp only [replay?] at h
      split at h
      next own =>
        subst own
        exact .cons .closed (ih h)
      next => cases h
    | _ => exact .cons (.aside rfl) (ih h)

end CommandQueue

/-- The command that an event puts on the queue. -/
def Event.entered? : Event → Option Command
  | ⟨.send c, taken⟩ => if taken = true then some c else none
  | _ => none

/-- The commands that an event takes off the queue. -/
def Event.takenOut : Event → List Command
  | ⟨.receive, next⟩ => next.toList
  | ⟨.closeQueue, left⟩ => left
  | _ => []

/-- The command that an event takes off the queue to be executed. -/
def Event.received? : Event → Option Command
  | ⟨.receive, next⟩ => next
  | _ => none

/-- What entered the queue, in this order. -/
def entered (events : List Event) : List Command := events.filterMap Event.entered?

/-- What left the queue, in this order. -/
def takenOut (events : List Event) : List Command := events.flatMap Event.takenOut

/-- What left the queue to be executed, in this order. -/
def executed (events : List Event) : List Command := events.filterMap Event.received?

@[simp] theorem entered_append (earlier later : List Event) :
    entered (earlier ++ later) = entered earlier ++ entered later := List.filterMap_append

@[simp] theorem takenOut_append (earlier later : List Event) :
    takenOut (earlier ++ later) = takenOut earlier ++ takenOut later := List.flatMap_append

@[simp] theorem executed_append (earlier later : List Event) :
    executed (earlier ++ later) = executed earlier ++ executed later := List.filterMap_append

@[simp] theorem takenOut_cons (e : Event) (rest : List Event) :
    takenOut (e :: rest) = e.takenOut ++ takenOut rest := List.flatMap_cons

theorem entered_cons (e : Event) (rest : List Event) :
    entered (e :: rest) = e.entered?.toList ++ entered rest := by
  unfold entered
  cases found : e.entered? with
  | none => rw [List.filterMap_cons_none found]; rfl
  | some c => rw [List.filterMap_cons_some found]; rfl

/-- Events aside from the queue put nothing on it and take nothing off. -/
theorem Event.aside {e : Event} (h : e.step.isQueueing = false) :
    e.entered? = none ∧ e.takenOut = [] ∧ e.received? = none := by
  obtain ⟨step, answer⟩ := e
  cases step with
  | send _ | receive | closeQueue => cases h
  | _ => exact ⟨rfl, rfl, rfl⟩

/-- What is taken out at all is taken out by the events of the queue. -/
theorem takenOut_eq_nil {events : List Event}
    (h : ∀ e ∈ events, e.step.isQueueing = false) : takenOut events = [] :=
  List.flatMap_eq_nil_iff.mpr fun e he => (Event.aside (h e he)).2.1

theorem executed_eq_nil {events : List Event}
    (h : ∀ e ∈ events, e.step.isQueueing = false) : executed events = [] :=
  List.filterMap_eq_nil_iff.mpr fun e he => (Event.aside (h e he)).2.2

namespace CommandQueue

variable {q q' : CommandQueue} {events : List Event}

/-- First in, first out, for one event. -/
theorem Take.fifo {e : Event} (h : Take q e q') :
    q.items ++ e.entered?.toList = e.takenOut ++ q'.items := by
  cases h with
  | @sent c room =>
    unfold send
    split
    next isOpen => simp [Event.entered?, Event.takenOut]
    next isClosed => simp [Event.entered?, Event.takenOut]
  | received =>
    unfold receive
    split
    next c rest _ queued => simp [Event.entered?, Event.takenOut, queued]
    next => simp [Event.entered?, Event.takenOut]
  | closed => simp [Event.entered?, Event.takenOut, close]
  | aside h =>
    obtain ⟨nothing, none, -⟩ := Event.aside h
    simp [nothing, none]

/-- First in, first out, and nothing is lost. -/
theorem Serves.fifo (h : Serves q events q') :
    q.items ++ entered events = takenOut events ++ q'.items := by
  induction h with
  | nil => simp [entered, takenOut]
  | cons take _ ih =>
    rw [entered_cons, takenOut_cons, ← List.append_assoc, take.fifo, List.append_assoc, ih,
      List.append_assoc]
  | cancelled _ ih => exact ih
  | unfed _ ih => exact ih

/-- A closed queue is empty. -/
def IsSound (q : CommandQueue) : Prop := q.isOpen = false → q.items = []

theorem Take.isSound {e : Event} (h : Take q e q') (sound : q.IsSound) :
    q'.IsSound ∧ (q.isOpen = false → q'.isOpen = false) := by
  cases h with
  | @sent c room =>
    unfold send
    split
    next isOpen => exact ⟨fun h => by simp [isOpen] at h, fun h => by simp [isOpen] at h⟩
    next => exact ⟨sound, id⟩
  | received =>
    unfold receive
    split
    next c rest _ queued =>
      refine ⟨fun h => ?_, id⟩
      have empty := sound h
      rw [queued] at empty
      cases empty
    next => exact ⟨sound, id⟩
  | closed => exact ⟨fun _ => rfl, fun _ => rfl⟩
  | aside h => exact ⟨sound, id⟩

theorem Serves.isSound (h : Serves q events q') (sound : q.IsSound) :
    q'.IsSound ∧ (q.isOpen = false → q'.isOpen = false) := by
  induction h with
  | nil => exact ⟨sound, id⟩
  | cons take _ ih =>
    obtain ⟨sound, still⟩ := take.isSound sound
    obtain ⟨sound, further⟩ := ih sound
    exact ⟨sound, further ∘ still⟩
  | cancelled _ ih => exact ih sound
  | unfed _ ih => exact ih sound

/-- A history is cut where its events are cut. -/
theorem Serves.of_append {earlier later : List Event} (h : Serves q (earlier ++ later) q') :
    ∃ middle, Serves q earlier middle ∧ Serves middle later q' := by
  generalize whole : earlier ++ later = events at h
  induction h generalizing earlier with
  | nil =>
    obtain ⟨rfl, rfl⟩ := List.append_eq_nil_iff.mp whole
    exact ⟨_, .nil, .nil⟩
  | @cons q _ _ e rest take serves ih =>
    cases earlier with
    | nil =>
      cases whole
      exact ⟨q, .nil, .cons take serves⟩
    | cons first earlier =>
      obtain ⟨rfl, rest⟩ := List.cons.inj whole
      obtain ⟨middle, before, behind⟩ := ih rest
      exact ⟨middle, .cons take before, behind⟩
  | cancelled _ ih =>
    obtain ⟨middle, before, behind⟩ := ih whole
    exact ⟨middle, .cancelled before, behind⟩
  | unfed _ ih =>
    obtain ⟨middle, before, behind⟩ := ih whole
    exact ⟨middle, .unfed before, behind⟩

/-- Nothing is queued behind a close. -/
theorem Serves.items_of_close {left : List Command}
    (h : Serves q (⟨.closeQueue, left⟩ :: events) q') (sound : q.IsSound) : q'.items = [] := by
  generalize whole : (⟨.closeQueue, left⟩ : Event) :: events = all at h
  induction h with
  | nil => cases whole
  | cons take rest _ =>
    obtain ⟨rfl, rfl⟩ := List.cons.inj whole
    have after := (take.isSound sound).1
    cases take with
    | closed =>
      obtain ⟨final, still⟩ := rest.isSound after
      exact final (still rfl)
    | aside h => cases h
  | cancelled _ ih => exact ih sound whole
  | unfed _ ih => exact ih sound whole

/-- Nothing is queued after the queue was closed. -/
theorem Serves.items_of_closed (h : Serves q events q') (sound : q.IsSound) {left : List Command}
    (closed : ⟨.closeQueue, left⟩ ∈ events) : q'.items = [] := by
  obtain ⟨before, behind, rfl⟩ := List.append_of_mem closed
  obtain ⟨middle, before, rest⟩ := h.of_append
  exact rest.items_of_close (before.isSound sound).1

theorem ofCapacity_isSound (capacity : Nat) : (ofCapacity capacity).IsSound := nofun

end CommandQueue

/-! ## The board -/

/-- The status that an event puts on the board for a command. -/
def Event.status? (id : String) (e : Event) : Option CommandStatus :=
  match e.step with
  | .post outcome => if outcome.command = id then some outcome.status else none
  | _ => none

/-- The statuses that are put on the board for a command, one after another. -/
def statuses (id : String) (events : List Event) : List CommandStatus :=
  events.filterMap (Event.status? id)

namespace Board

/-- The board after an event. -/
def next (b : Board) (e : Event) : Board :=
  match e.step with
  | .post outcome => b.put outcome
  | .announce outcome => b.announce outcome
  | .discard cutoff => b.prune cutoff
  | _ => b

/-- The board after events. -/
def after (b : Board) (events : List Event) : Board := events.foldl next b

/-- The status that the board shows for a command. -/
def status? (b : Board) (id : String) : Option CommandStatus := (b.get? id).map Outcome.status

theorem status?_next (b : Board) (id : String) {e : Event}
    (keeps : ∀ cutoff, e.step ≠ .discard cutoff) :
    (b.next e).status? id = (e.status? id).or (b.status? id) := by
  obtain ⟨step, answer⟩ := e
  cases step with
  | post outcome =>
    simp only [next, Event.status?, status?, Board.get?, put, Table.get?_insert]
    split
    · rfl
    · rfl
  | discard cutoff => exact absurd rfl (keeps cutoff)
  | _ => rfl

/-- The board shows the last status that was put on it, if no outcomes are discarded. -/
theorem status?_after (b : Board) (id : String) {events : List Event}
    (keeps : ∀ e ∈ events, ∀ cutoff, e.step ≠ .discard cutoff) :
    (b.after events).status? id = (statuses id events).getLast?.or (b.status? id) := by
  induction events generalizing b with
  | nil => rfl
  | cons e rest ih =>
    have later := ih (b.next e) fun x hx => keeps x (List.mem_cons_of_mem _ hx)
    have first := b.status?_next id (keeps e List.mem_cons_self)
    rw [after, List.foldl_cons, ← after, later, first, ← Option.or_assoc]
    congr 1
    cases put : e.status? id with
    | none => rw [Option.or_none, statuses, statuses, List.filterMap_cons_none put]
    | some status =>
      rw [statuses, statuses, List.filterMap_cons_some put, List.getLast?_cons]
      cases (rest.filterMap (Event.status? id)).getLast? <;> rfl

end Board

end Fieldbus
