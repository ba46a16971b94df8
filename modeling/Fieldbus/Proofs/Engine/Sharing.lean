import Fieldbus.Engine.Status
import Fieldbus.Poll.Poller
import Fieldbus.Proofs.Activity.Waiting
import Fieldbus.Proofs.Command.Acknowledgement

/-!
# Sharing a link

A poll loop, the executor of commands and whoever asks for the status of a channel share the lock
of its link.  Each of them visits the link for one thing at a time: the poll loop makes the link or
reads a batch, the executor writes, and whoever asks reads the counters (`Poll.run_visits`,
`Command.serve_visits`, `Running.status_visits`).

So exchanges over a link do not overlap, nobody sleeps with the lock, and a command waits for one
exchange of the poll loop at most (`link_shared`).
-/

namespace Fieldbus

open Activity (ask)

/-! ## Poll loops -/

namespace Poll

/-- What a poll loop does while it holds the lock of a link. -/
inductive Visit (link : LinkId) : List Event → Prop
  /-- The link is up. -/
  | connected : Visit link [⟨.isConnected link, true⟩]
  /-- The link is down, and is made if it can be. -/
  | connects (time : Nanos) (result : Except Fault Unit) :
    Visit link [⟨.isConnected link, false⟩, ⟨.setState link .connecting, ()⟩, ⟨.now, time⟩,
      ⟨.connect link, result⟩]
  /-- One try of a batch. -/
  | reads (batch : Batch) (result : Except Fault (List UInt16)) :
    Visit link [⟨.read link batch, result⟩]
  /-- One try of a batch, of which the frames are logged. -/
  | readsFrames (batch : Batch) (result : Except Fault (List UInt16)) (frames : Log.Frames) :
    Visit link [⟨.read link batch, result⟩, ⟨.frames link, frames⟩]

/-- What a poll loop does while it holds a lock. -/
def VisitAt (own link : LinkId) (visit : List Event) : Prop := link = own ∧ Visit link visit

theorem VisitAt.isVisit {own link : LinkId} {visit : List Event} (h : VisitAt own link visit) :
    IsVisit link visit := by
  obtain ⟨-, shape⟩ := h
  cases shape with
  | connected => exact ⟨by simp [Step.isInside], by simp [Step.uses]⟩
  | connects _ _ => exact ⟨by simp [Step.isInside], by simp [Step.uses]⟩
  | reads _ _ => exact ⟨by simp [Step.isInside], by simp [Step.uses]⟩
  | readsFrames _ _ _ => exact ⟨by simp [Step.isInside], by simp [Step.uses]⟩

section

variable {α : Type} {c : Channel} {link : LinkId} {b : Batch}

theorem ensureConnected_visits (p : Poller α) :
    (ensureConnected c link p).Visits (VisitAt link) := by
  intro events up run
  obtain ⟨_, _, rfl, locked⟩ := run.of_ask_bind
  obtain ⟨connected, _, rfl, asked⟩ := locked.of_ask_bind
  cases connected with
  | true =>
    obtain ⟨_, _, rfl, last⟩ := asked.of_ask_bind
    obtain ⟨rfl, -⟩ := Activity.performs_pure.mp last
    have own : VisitAt link link _ := ⟨rfl, .connected⟩
    exact .visit own .nil
  | false =>
    obtain ⟨_, _, rfl, shown⟩ := asked.of_ask_bind
    obtain ⟨started, _, rfl, timed⟩ := shown.of_ask_bind
    obtain ⟨result, _, rfl, made⟩ := timed.of_ask_bind
    obtain ⟨_, rest, rfl, unlocked⟩ := made.of_ask_bind
    have own : VisitAt link link _ := ⟨rfl, .connects started result⟩
    refine .visit own (.of_isOutside ?_)
    refine Activity.Only.of_performs (P := fun s => s.isOutside = true) ?_ unlocked
    split
    next =>
      split
      next => exact .ask_bind rfl fun _ => trivial
      next => trivial
    next => trivial
    next => exact .ask_bind rfl fun _ => .ask_bind rfl fun _ => .ask_bind rfl fun _ => trivial

theorem readOnce_visits : (readOnce c link b).Visits (VisitAt link) := by
  intro events tried run
  obtain ⟨_, _, rfl, locked⟩ := run.of_ask_bind
  obtain ⟨result, _, rfl, answered⟩ := locked.of_ask_bind
  split at answered
  next =>
    obtain ⟨frames, _, rfl, shown⟩ := answered.of_ask_bind
    obtain ⟨_, _, rfl, last⟩ := shown.of_ask_bind
    obtain ⟨rfl, -⟩ := Activity.performs_pure.mp last
    have own : VisitAt link link _ := ⟨rfl, .readsFrames b result frames⟩
    exact .visit own .nil
  next =>
    obtain ⟨_, _, rfl, last⟩ := answered.of_ask_bind
    obtain ⟨rfl, -⟩ := Activity.performs_pure.mp last
    have own : VisitAt link link _ := ⟨rfl, .reads b result⟩
    exact .visit own .nil

theorem logRead_isOutside {started : Nanos} {made : Nat} {fault : Option Fault}
    {frames : Option Log.Frames} :
    (logRead c b started made fault frames).Only fun s => s.isOutside = true :=
  .ask_bind rfl fun _ => .ask_bind rfl fun _ => .ask rfl

theorem tryBatch_visits {started : Nanos} {made left : Nat} :
    (tryBatch c link b started made left).Visits (VisitAt link) := by
  have logged {made : Nat} {fault : Option Fault} {frames : Option Log.Frames}
      (readings : Option (List Reading)) :
      (logRead c b started made fault frames >>= fun _ => pure readings).Visits (VisitAt link) :=
    .bind logRead_isOutside.visits fun _ => .pure readings
  induction left generalizing made with
  | zero =>
    refine .bind readOnce_visits fun tried => ?_
    obtain ⟨result, frames⟩ := tried
    cases result with
    | ok readings => exact logged _
    | error fault => exact logged _
  | succ left ih =>
    refine .bind readOnce_visits fun tried => ?_
    obtain ⟨result, frames⟩ := tried
    cases result with
    | ok readings => exact logged _
    | error fault =>
      refine .aside rfl fun _ => .aside rfl fun cancelled => ?_
      cases cancelled with
      | true => exact logged _
      | false => exact ih

theorem readBatches_visits {first : Bool} {t : Tally} {batches : List Batch} :
    (readBatches c link first t batches).Visits (VisitAt link) := by
  induction batches generalizing first t with
  | nil => exact .pure t
  | cons b rest ih =>
    have further : (readBatch c link b >>= fun result =>
        readBatches c link false (t.add result) rest).Visits (VisitAt link) :=
      .bind (.aside rfl fun _ => tryBatch_visits) fun _ => ih
    refine .aside rfl fun cancelled => ?_
    cases cancelled with
    | true => exact .pure t
    | false =>
      simp only [Bool.false_eq_true, if_false]
      split
      · exact .aside rfl fun _ => .aside rfl fun _ => further
      · exact further

theorem readPlan_visits (p : Poller α) (plan : Plan) :
    (readPlan c link p plan).Visits (VisitAt link) := by
  unfold readPlan
  split
  next => exact .pure _
  next =>
    refine .bind (ensureConnected_visits p) fun up => ?_
    cases up with
    | true => exact readBatches_visits
    | false => exact .pure _

variable [DelayNumber α]

theorem cycle_visits (p : Poller α) : (cycle c link p).Visits (VisitAt link) := by
  refine .aside rfl fun plan => .aside rfl fun _ => .bind (readPlan_visits p plan) fun tally => ?_
  refine .aside rfl fun _ => .aside rfl fun _ => ?_
  exact .aside rfl fun _ => .aside rfl fun _ => .pure _

theorem loop_visits (fuel : Nat) (p : Poller α) :
    (loop c link fuel p).Visits (VisitAt link) := by
  induction fuel generalizing p with
  | zero => exact .pure p
  | succ fuel ih =>
    refine .aside rfl fun cancelled => ?_
    cases cancelled with
    | true => exact .pure p
    | false =>
      refine .aside rfl fun _ => .bind (cycle_visits p) fun passed => .aside rfl fun ended => ?_
      cases ended with
      | true => exact .pure _
      | false => exact ih _

theorem run_visits (fuel : Nat) (p : Poller α) : (run c link fuel p).Visits (VisitAt link) :=
  .bind (loop_visits fuel p) fun _ => .aside rfl fun _ => .pure _

end

end Poll

/-! ## Commands -/

namespace Command

/-- What the executor does while it holds the lock of a link. -/
inductive Visit (link : LinkId) : List Event → Prop
  /-- One write. -/
  | writes (point : Point) (words : List UInt16) (result : Except Fault Unit) :
    Visit link [⟨.write link point words, result⟩]
  /-- One write, of which the frames are logged. -/
  | writesFrames (point : Point) (words : List UInt16) (result : Except Fault Unit)
      (frames : Log.Frames) :
    Visit link [⟨.write link point words, result⟩, ⟨.frames link, frames⟩]

theorem Visit.isVisit {link : LinkId} {visit : List Event} (h : Visit link visit) :
    IsVisit link visit := by
  cases h with
  | writes _ _ _ => exact ⟨by simp [Step.isInside], by simp [Step.uses]⟩
  | writesFrames _ _ _ _ => exact ⟨by simp [Step.isInside], by simp [Step.uses]⟩

theorem report_visits (id : String) (status : CommandStatus) : (report id status).Visits Visit :=
  Activity.Only.visits
    (report_keeps (P := fun s => s.isOutside = true) rfl (fun _ => rfl) (fun _ => rfl) id status)

theorem send_visits (c : Command) (h : ChannelHandle) (p : Point) (words : List UInt16) :
    (c.send h p words).Visits Visit := by
  have stored {status : CommandStatus} {writes : List StoreWrite} (isStored : Bool) :
      (if isStored = true then ask (.publish writes) >>= fun _ => pure status
        else pure status : Activity CommandStatus).Only fun s => s.isOutside = true := by
    split
    next => exact .ask_bind rfl fun _ => trivial
    next => trivial
  refine .bind (report_visits _ _) fun _ => .aside rfl fun started => ?_
  intro events status run
  obtain ⟨_, _, rfl, locked⟩ := run.of_ask_bind
  obtain ⟨result, _, rfl, answered⟩ := locked.of_ask_bind
  dsimp only at answered
  by_cases debug : h.channel.log.level = .debug
  · rw [if_pos debug] at answered
    obtain ⟨frames, _, rfl, shown⟩ := answered.of_ask_bind
    obtain ⟨_, later, rfl, unlocked⟩ := shown.of_ask_bind
    refine .visit (Visit.writesFrames p words result frames) (.of_isOutside ?_)
    refine Activity.Only.of_performs (P := fun s => s.isOutside = true) ?_ unlocked
    exact .ask_bind rfl fun _ => .ask_bind rfl fun _ => .ask_bind rfl fun _ => stored _
  · rw [if_neg debug] at answered
    obtain ⟨_, later, rfl, unlocked⟩ := answered.of_ask_bind
    refine .visit (Visit.writes p words result) (.of_isOutside ?_)
    refine Activity.Only.of_performs (P := fun s => s.isOutside = true) ?_ unlocked
    exact .ask_bind rfl fun _ => .ask_bind rfl fun _ => .ask_bind rfl fun _ => stored _

theorem dispatch_visits (c : Command) : c.dispatch.Visits Visit := by
  refine .aside rfl fun found => ?_
  cases found with
  | none => exact .pure _
  | some h =>
    refine .aside rfl fun state => ?_
    cases c.aim h.channel state with
    | error cause => exact .pure _
    | ok target => exact send_visits c h target.1 target.2

theorem serveNext_visits : serveNext.Visits Visit := by
  refine .aside rfl fun command => ?_
  cases command with
  | none => exact .pure _
  | some c =>
    refine .bind ?_ fun _ => .pure _
    exact .bind (dispatch_visits c) fun status => .bind (report_visits _ _) fun _ => .pure _

theorem retire_visits : retire.Visits Visit :=
  .aside rfl fun left => Activity.Only.visits
    (refuseAll_keeps (P := fun s => s.isOutside = true) rfl (fun _ => rfl) (fun _ => rfl) left)

theorem serve_visits (fuel : Nat) : (serve fuel).Visits Visit := by
  induction fuel with
  | zero => exact retire_visits
  | succ fuel ih =>
    refine .bind serveNext_visits fun more => ?_
    cases more with
    | true => exact ih
    | false => exact retire_visits

end Command

/-! ## Questions -/

/-- What whoever asks for a status does while it holds the lock of a link. -/
inductive Running.Visit (link : LinkId) : List Event → Prop
  /-- The counters are read. -/
  | stats (stats : LinkStats) : Visit link [⟨.stats link, stats⟩]

theorem Running.Visit.isVisit {link : LinkId} {visit : List Event} (h : Running.Visit link visit) :
    IsVisit link visit := by
  cases h with
  | stats _ => exact ⟨by simp [Step.isInside], by simp [Step.uses]⟩

theorem Running.status_visits (r : Running) : r.status.Visits Running.Visit := by
  intro events status run
  obtain ⟨_, _, rfl, locked⟩ := run.of_ask_bind
  obtain ⟨stats, _, rfl, answered⟩ := locked.of_ask_bind
  obtain ⟨_, _, rfl, unlocked⟩ := answered.of_ask_bind
  obtain ⟨_, _, rfl, reported⟩ := unlocked.of_ask_bind
  obtain ⟨_, _, rfl, planned⟩ := reported.of_ask_bind
  obtain ⟨_, _, rfl, last⟩ := planned.of_ask_bind
  obtain ⟨rfl, -⟩ := Activity.performs_pure.mp last
  have own : Running.Visit r.link _ := .stats stats
  exact .visit own (.aside rfl (.aside rfl (.aside rfl .nil)))

/-! ## All together -/

/-- Those who share a link. -/
inductive Sharer (κ : Type) where
  | poller
  | executor
  /-- Somebody who asks for a status. -/
  | asker (k : κ)
deriving DecidableEq

namespace Sharer

variable {κ : Type}

/-- What the activity of a sharer ends with. -/
@[reducible] def Value (α : Type) : Sharer κ → Type
  | .poller => Poll.Poller α
  | .executor => Unit
  | .asker _ => ChannelStatus

/-- What a sharer does while it holds the lock of a link.  The poll loop is that of the link
`own`. -/
def Visit (own : LinkId) : Sharer κ → LinkId → List Event → Prop
  | .poller => Poll.VisitAt own
  | .executor => Command.Visit
  | .asker _ => Running.Visit

/-- A poll loop, an executor and questions about running channels. -/
def activity {α : Type} [DelayNumber α] (c : Channel) (link : LinkId) (cycles : Nat)
    (p : Poll.Poller α) (commands : Nat) (asked : κ → Running) :
    (u : Sharer κ) → Activity (Value α u)
  | .poller => Poll.run c link cycles p
  | .executor => Command.serve commands
  | .asker k => (asked k).status

theorem visit_isVisit {own link : LinkId} {u : Sharer κ} {visit : List Event}
    (h : u.Visit own link visit) : IsVisit link visit := by
  cases u with
  | poller => exact Poll.VisitAt.isVisit h
  | executor => exact Command.Visit.isVisit h
  | asker k => exact Running.Visit.isVisit h

variable {α : Type} [DelayNumber α] {c : Channel} {link : LinkId} {cycles commands : Nat}
  {p : Poll.Poller α} {asked : κ → Running}

theorem activity_visits (u : Sharer κ) :
    (activity c link cycles p commands asked u).Visits (u.Visit link) := by
  cases u with
  | poller => exact Poll.run_visits cycles p
  | executor => exact Command.serve_visits commands
  | asker k => exact (asked k).status_visits

end Sharer

namespace Crowd

/-- Whether an activity is in the middle of using a link. -/
def IsUsing {ι : Type} {β : ι → Type} (s : Crowd β) (i : ι) (link : LinkId) : Prop :=
  s.isBusy i = true ∧ ∃ step next, s.ensemble.tasks i = .step step next ∧ step.uses link = true

/-- Whether an activity is about to sleep, or does. -/
def IsSleeping {ι : Type} {β : ι → Type} (s : Crowd β) (i : ι) : Prop :=
  (∃ wake next, s.ensemble.tasks i = .step (.sleep wake) next) ∨
    ∃ link wake next, s.ensemble.tasks i = .step (.pause link wake) next

section

variable {ι : Type} {β : ι → Type} {s : Crowd β} {stance : ι → Activity.Stance}

theorem Orderly.eq_of_isUsing (h : s.Orderly stance) {i j : ι} {link : LinkId}
    (one : s.IsUsing i link) (other : s.IsUsing j link) : i = j := by
  obtain ⟨-, _, _, ready, uses⟩ := one
  obtain ⟨-, _, _, ready', uses'⟩ := other
  have held := h.holder_of_uses ready uses
  rw [h.holder_of_uses ready' uses'] at held
  exact (Option.some.inj held).symm

theorem Orderly.holder_of_outside (h : s.Orderly stance) {i : ι} (outside : stance i = .outside)
    (link : LinkId) : s.ensemble.holder link ≠ some i := by
  rw [ne_eq, h.holds, outside]
  simp [Activity.Stance.link?]

theorem Orderly.holder_of_isSleeping (h : s.Orderly stance) {i : ι} (asleep : s.IsSleeping i)
    (link : LinkId) : s.ensemble.holder link ≠ some i := by
  have stands := h.stands i
  refine h.holder_of_outside ?_ link
  generalize stance i = st at stands
  rcases asleep with ⟨wake, next, ready⟩ | ⟨l, wake, next, ready⟩
  · rw [ready] at stands
    cases stands with
    | aside _ _ => rfl
    | use uses _ => cases uses
    | look inside _ _ => cases inside
  · rw [ready] at stands
    cases stands with
    | aside _ _ => rfl
    | use uses _ => cases uses
    | look inside _ _ => cases inside

theorem Orderly.holder_of_done (h : s.Orderly stance) {i : ι} {v : β i}
    (through : s.ensemble.tasks i = .done v) (link : LinkId) :
    s.ensemble.holder link ≠ some i := by
  have stands := h.stands i
  refine h.holder_of_outside ?_ link
  rw [through] at stands
  generalize stance i = st at stands
  cases stands with
  | done => rfl

end

end Crowd

section

variable {κ : Type} [DecidableEq κ] {α : Type} [DelayNumber α] {given : Event → Prop}
  {c : Channel} {link : LinkId} {cycles commands : Nat} {p : Poll.Poller α} {asked : κ → Running}
  {history : List (Sharer κ × Moment)} {s : Crowd (Sharer.Value α)}

/-- However a poll loop, an executor and any number of questions about statuses share a link whose
lock goes to whoever asked first:

- all that they do is visits, each of which is for one thing, and once they are through every visit
  has ended and they hold no lock,
- no two of them use a link at the same time,
- whoever sleeps holds no lock,
- from the time at which the executor asks for the lock of the link until it begins to write, the
  poll loop uses the link at most once, and the beginning of that use may lie before. -/
theorem link_shared
    (run : Crowd.Run given (.start (Sharer.activity c link cycles p commands asked)) history s) :
    (∀ u : Sharer κ, ∃ rest, Visited (u.Visit link) (Crowd.eventsOf u history ++ rest)) ∧
    (∀ (u : Sharer κ) v, s.ensemble.tasks u = .done v →
      Visited (u.Visit link) (Crowd.eventsOf u history) ∧ ∀ l, s.ensemble.holder l ≠ some u) ∧
    (∀ u u' l, s.IsUsing u l → s.IsUsing u' l → u = u') ∧
    (∀ u l, s.IsSleeping u → s.ensemble.holder l ≠ some u) ∧
    ∀ before middle after point words,
      history = before ++ (.executor, .begins (.lock link)) :: (middle ++
        (.executor, .begins (.write link point words)) :: after) →
      (∀ e ∈ middle, ∀ step, e ≠ (.executor, .begins step)) →
      ∃ e, (Crowd.momentsOf .poller middle).filter (Moment.uses link) <:+ Crowd.spell e := by
  have visits (u : Sharer κ) :
      (Sharer.activity c link cycles p commands asked u).Visits (u.Visit link) :=
    Sharer.activity_visits u
  have start := Crowd.orderly_start fun u => (visits u).mono fun _ _ => Sharer.visit_isVisit
  obtain ⟨stance, final⟩ := run.orderly start
  refine ⟨fun u => ?_, fun u v through => ⟨?_, final.holder_of_done through⟩,
    fun _ _ _ one other => final.eq_of_isUsing one other,
    fun _ l asleep => final.holder_of_isSleeping asleep l, ?_⟩
  · obtain ⟨rest, v, whole, -⟩ := (run.performs u).completed
    exact ⟨rest, visits u _ _ whole⟩
  · have performs := run.performs u
    rw [through] at performs
    exact visits u _ _ performs
  · rintro before middle after point words rfl still
    obtain ⟨s₁, earlier, rest⟩ := run.of_append
    obtain ⟨_, orderly⟩ := earlier.orderly start
    cases rest with
    | cons asks rest =>
      obtain ⟨_, orderly⟩ := orderly.take asks
      obtain ⟨s₂, between, last⟩ := rest.of_append
      obtain ⟨_, inside⟩ := between.orderly orderly
      cases last with
      | cons writes _ =>
        refine between.uses_between orderly ?_ (by simp) still ?_
        · cases asks with
          | begins _ _ => simp [Crowd.waitingAfter]
        · cases writes with
          | begins ready _ => exact inside.holder_of_uses ready (by simp [Step.uses])

end

/-! ## A command during a read -/

/-- A point that takes commands. -/
def pumpSpeed : Point := { id := 1, address := 0, category := .adjustment, type := .uint16 }

/-- A channel with this point. -/
def pump : Channel :=
  { id := 7, name := "pump", medium := .tcp "192.0.2.7" 502, points := [pumpSpeed] }

def pumpBatch : Batch := { points := [pumpSpeed] }

def pumpAnswer : (step : Step) → step.Answer
  | .isConnected _ => true
  | .plan _ => { batches := [pumpBatch] }
  | .read .. => .ok [3]
  | .receive => some ⟨7, 1, .ofNat 7, "set"⟩
  | .find _ => some ⟨pump, 0⟩
  | .state _ => .polling
  | _ => default

/-- Before the poll loop, the executor and somebody who asks for the status begin. -/
def pumpStart : Crowd (Sharer.Value (κ := Unit) Binary64) :=
  .start (Sharer.activity pump 0 1 (.ofChannel pump pump.retry.multiplier) 1 fun _ => ⟨pump, 0, {}⟩)

/-- The question and then the command come while the batch is read. -/
def pumpTurns : List (Sharer Unit) :=
  List.replicate 21 .poller ++ [.asker ()] ++ List.replicate 13 .executor ++
    List.replicate 3 .poller ++ List.replicate 5 (.asker ()) ++ List.replicate 2 .executor

/-- What happens from the time at which the executor asks for the lock until it writes. -/
def pumpMeanwhile : List (Sharer Unit × Moment) :=
  [(.poller, .ends ⟨.read 0 pumpBatch, .ok [3]⟩),
    (.poller, .begins (.unlock 0)), (.poller, .ends ⟨.unlock 0, ()⟩),
    (.asker (), .ends ⟨.lock 0, ()⟩),
    (.asker (), .begins (.stats 0)), (.asker (), .ends ⟨.stats 0, {}⟩),
    (.asker (), .begins (.unlock 0)), (.asker (), .ends ⟨.unlock 0, ()⟩),
    (.executor, .ends ⟨.lock 0, ()⟩)]

def pumpHistory : List (Sharer Unit × Moment) := (Crowd.play pumpAnswer pumpTurns pumpStart).1

theorem pumpHistory_eq :
    pumpHistory = pumpHistory.take 34 ++ (.executor, .begins (.lock 0)) ::
      (pumpMeanwhile ++ [(.executor, .begins (.write 0 pumpSpeed [7]))]) := by
  rfl

/-- Only the read that was under way ends before the command is written. -/
theorem pump_link_shared :
    (Crowd.Run (fun _ => True) pumpStart pumpHistory (Crowd.play pumpAnswer pumpTurns pumpStart).2 ∧
      ∀ e ∈ pumpMeanwhile, ∀ step, e ≠ (.executor, .begins step)) ∧
    (Crowd.momentsOf .poller pumpMeanwhile).filter (Moment.uses 0) =
      [.ends ⟨.read 0 pumpBatch, .ok [3]⟩] ∧
    ∃ e, (Crowd.momentsOf .poller pumpMeanwhile).filter (Moment.uses 0) <:+ Crowd.spell e := by
  have run : Crowd.Run (fun _ => True) pumpStart pumpHistory _ :=
    Crowd.run_play (fun _ => trivial) pumpTurns pumpStart
  have still : ∀ e ∈ pumpMeanwhile, ∀ step, e ≠ (.executor, .begins step) := by
    simp [pumpMeanwhile]
  obtain ⟨-, -, -, -, between⟩ := link_shared run
  exact ⟨⟨run, still⟩, rfl, between _ _ _ _ _ pumpHistory_eq still⟩

end Fieldbus
