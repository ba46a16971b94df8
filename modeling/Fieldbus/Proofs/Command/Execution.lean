import Mathlib.Data.List.Forall2
import Fieldbus.Proofs.Activity.Interleaving
import Fieldbus.Proofs.Command.Signs
import Fieldbus.Proofs.Poll.Standing

/-!
# What executing a command does

An execution acts on a device, on the board, in the log and on the store.  Whether it does so at all
depends on the registry and on the state that the channel shows (`Command.Reaches`): a command that
reaches no point leaves just its failure on the board.

`Command.Executed` lists the events by which an execution acts, one rule for each way that it can
go.  How often it writes, what it logs, what the board shows and what the store holds are read off
that list (`Command.execute_accounted`).
-/

namespace Fieldbus

open Activity (Only ask performs_pure)

/-! ## Events that act -/

/-- Whether a step acts on a device, on the board, in the log or on the store. -/
def Step.isActing : Step → Bool
  | .write .. | .post _ | .log _ | .publish _ | .forget _ => true
  | _ => false

/-- The events that act. -/
def acts (events : List Event) : List Event := events.filter (·.step.isActing)

@[simp] theorem acts_nil : acts [] = [] := rfl

@[simp] theorem acts_append (earlier later : List Event) :
    acts (earlier ++ later) = acts earlier ++ acts later := List.filter_append ..

theorem acts_cons {e : Event} (acting : e.step.isActing = true) (rest : List Event) :
    acts (e :: rest) = e :: acts rest := List.filter_cons_of_pos acting

theorem acts_cons_of_idle {e : Event} (idle : e.step.isActing = false) (rest : List Event) :
    acts (e :: rest) = acts rest := List.filter_cons_of_neg (by simp [idle])

theorem acts_of_only {α : Type} {a b : Activity α} {events : List Event}
    (idle : a.Only fun s => s.isActing = false) (run : a.Performs events b) : acts events = [] :=
  List.filter_eq_nil_iff.mpr fun e he => by simp [idle.of_performs run e he]

/-- A write to a device, with its result. -/
structure Delivery where
  link : LinkId
  point : Point
  words : List UInt16
  result : Except Fault Unit

def Delivery.fault? (d : Delivery) : Option Fault :=
  match d.result with
  | .ok () => none
  | .error fault => some fault

def Event.delivery? : Event → Option Delivery
  | ⟨.write link p words, result⟩ => some ⟨link, p, words, result⟩
  | _ => none

def Event.record? : Event → Option Log.Record
  | ⟨.log record, _⟩ => some record
  | _ => none

/-- The writes to devices. -/
def deliveries (events : List Event) : List Delivery := events.filterMap Event.delivery?

/-- What is logged. -/
def records (events : List Event) : List Log.Record := events.filterMap Event.record?

/-- The store after events at one time. -/
def Store.after (s : Store) (time : Int) (events : List Event) : Store :=
  events.foldl (fun s e => Ensemble.storeAfter s time e.step) s

/-- What is seen of acting events only is seen of them alone. -/
theorem filterMap_acts {β : Type} {f : Event → Option β}
    (idle : ∀ e : Event, e.step.isActing = false → f e = none) (events : List Event) :
    (acts events).filterMap f = events.filterMap f := by
  unfold acts
  rw [List.filterMap_filter]
  refine List.filterMap_congr fun e _ => ?_
  cases acting : e.step.isActing with
  | true => rfl
  | false => rw [idle e acting]; rfl

theorem deliveries_acts (events : List Event) : deliveries (acts events) = deliveries events :=
  filterMap_acts (fun e idle => by
    obtain ⟨step, _⟩ := e
    cases step with
    | write _ _ _ => cases idle
    | _ => rfl) events

theorem records_acts (events : List Event) : records (acts events) = records events :=
  filterMap_acts (fun e idle => by
    obtain ⟨step, _⟩ := e
    cases step with
    | log _ => cases idle
    | _ => rfl) events

theorem statuses_acts (id : String) (events : List Event) :
    statuses id (acts events) = statuses id events :=
  filterMap_acts (fun e idle => by
    obtain ⟨step, _⟩ := e
    cases step with
    | post _ => cases idle
    | _ => rfl) events

theorem Store.after_acts (s : Store) (time : Int) (events : List Event) :
    s.after time (acts events) = s.after time events := by
  unfold after acts
  rw [List.foldl_filter]
  congr 1
  funext s e
  obtain ⟨step, answer⟩ := e
  cases step with
  | _ => rfl

/-- What has words is a number. -/
theorem DataType.isNaN_of_encode {type : DataType} {value : Binary64} {order : ByteOrder}
    {words : List UInt16} (encoded : type.encode value order = .ok words) :
    value.isNaN = false := by
  cases nan : value.isNaN with
  | false => rfl
  | true =>
    unfold encode at encoded
    rw [nan, if_pos rfl] at encoded
    cases encoded

namespace Command

variable {c : Command} {registry : UInt16 → Option ChannelHandle} {state : LinkId → ChannelState}
  {events : List Event} {status : CommandStatus}

/-! ## Where commands go -/

/-- The channels that take commands are those of a registry, and they show these states. -/
def Finds (registry : UInt16 → Option ChannelHandle) (state : LinkId → ChannelState) : Event → Prop
  | ⟨.find channel, found⟩ => found = registry channel
  | ⟨.state link, shown⟩ => shown = state link
  | _ => True

/-- The command is taken to a point over a channel. -/
structure Reaches (c : Command) (registry : UInt16 → Option ChannelHandle)
    (state : LinkId → ChannelState) (h : ChannelHandle) (p : Point) : Prop where
  registered : registry c.channel = some h
  point : h.channel.point? c.point = some p
  writable : p.isWritable = true
  taken : (state h.link).rejectsCommands = false
  number : c.value.isNaN = false

/-- A channel aims a command at a point if all of this holds. -/
theorem aim_eq_ok_iff {channel : Channel} {shown : ChannelState} {p : Point}
    {words : List UInt16} :
    c.aim channel shown = .ok (p, words) ↔
      channel.point? c.point = some p ∧ p.isWritable = true ∧ shown.rejectsCommands = false ∧
        p.type.encode c.value p.order = .ok words := by
  constructor
  · intro aimed
    have taken := rejectsCommands_of_aim aimed
    unfold aim at aimed
    split at aimed
    next => cases aimed
    next found =>
      split at aimed
      next => cases aimed
      next writable =>
        rw [taken, if_neg Bool.false_ne_true] at aimed
        split at aimed
        next encoded =>
          cases aimed
          exact ⟨found, by simpa using writable, taken, encoded⟩
        next => cases aimed
  · rintro ⟨found, writable, taken, encoded⟩
    exact aim_eq_ok found writable encoded taken

/-! ## How an execution acts -/

/-- A status is put on the board. -/
def posted (id : String) (status : CommandStatus) (time : Instant) : Event :=
  ⟨.post (Board.outcomeOf id status time), ()⟩

/-- A write that succeeded is published. -/
def acknowledgement (c : Command) (h : ChannelHandle) (p : Point) (words : List UInt16) :
    Except Fault Unit → List Event
  | .ok () => [⟨.publish [ackWrite h.channel.id p (p.acknowledged words c.value)], ()⟩]
  | .error _ => []

/-- The events by which an execution acts, and the status at its end. -/
inductive Executed (c : Command) (registry : UInt16 → Option ChannelHandle)
    (state : LinkId → ChannelState) : List Event → CommandStatus → Prop where
  /-- The command reaches no point, and fails. -/
  | refused {cause : CommandFault} {time : Instant} :
    (∀ h p, ¬ c.Reaches registry state h p) →
    Executed c registry state [posted c.id (.failed cause) time] (.failed cause)
  /-- It is put in flight, written once and logged, and it ends as the write does. -/
  | written {h : ChannelHandle} {p : Point} {words : List UInt16} {result : Except Fault Unit}
      {record : Log.Record} {begun ended : Instant} :
    c.Reaches registry state h p →
    p.type.encode c.value p.order = .ok words →
    record.channel = h.channel.id →
    record.purpose = .ofPoint p c.id →
    record.fault = Delivery.fault? ⟨h.link, p, words, result⟩ →
    Executed c registry state
      (posted c.id .inFlight begun :: ⟨.write h.link p words, result⟩ :: ⟨.log record, ()⟩ ::
        (c.acknowledgement h p words result ++ [posted c.id (statusAfter result) ended]))
      (statusAfter result)

theorem report_acts {id : String} (run : (report id status).Performs events (.done ())) :
    ∃ time, acts events = [posted id status time] := by
  obtain ⟨time, _, rfl, posting⟩ := run.of_ask_bind
  obtain ⟨_, rest, rfl, announcing⟩ := posting.of_ask_bind
  have idle : acts rest = [] := by
    refine acts_of_only ?_ announcing
    split
    · exact .ask rfl
    · trivial
  refine ⟨time, ?_⟩
  rw [acts_cons_of_idle rfl, acts_cons rfl, idle]
  rfl

/-- After a write its frames are taken, perhaps, and it is logged. -/
theorem logging_acts {β : Type} {v : β} {link : LinkId} {capture : Activity (Option Log.Frames)}
    {record : Option Log.Frames → Nanos → Instant → Log.Record} {rest : Activity β}
    (idle : capture.Only fun s => s.isActing = false)
    (run : (do
      let frames ← capture
      ask (.unlock link)
      let ended ← ask .now
      let time ← ask .clock
      ask (.log (record frames ended time))
      rest).Performs events (.done v)) :
    ∃ frames ended time later, acts events = ⟨.log (record frames ended time), ()⟩ :: acts later ∧
      rest.Performs later (.done v) := by
  obtain ⟨frames, capturing, _, rfl, captured, unlocking⟩ := run.of_bind
  obtain ⟨_, _, rfl, unlocked⟩ := unlocking.of_ask_bind
  obtain ⟨ended, _, rfl, ending⟩ := unlocked.of_ask_bind
  obtain ⟨time, _, rfl, logging⟩ := ending.of_ask_bind
  obtain ⟨_, later, rfl, logged⟩ := logging.of_ask_bind
  refine ⟨frames, ended, time, later, ?_, logged⟩
  rw [acts_append, acts_of_only idle captured, acts_cons_of_idle rfl, acts_cons_of_idle rfl,
    acts_cons_of_idle rfl, acts_cons rfl, List.nil_append]

/-- A command that is sent is written once and logged, and published if the write succeeded. -/
theorem send_acts {h : ChannelHandle} {p : Point} {words : List UInt16}
    (run : (c.send h p words).Performs events (.done status)) :
    ∃ (result : Except Fault Unit) (record : Log.Record) (begun : Instant),
      status = statusAfter result ∧ record.channel = h.channel.id ∧
        record.purpose = .ofPoint p c.id ∧
        record.fault = Delivery.fault? ⟨h.link, p, words, result⟩ ∧
        acts events = posted c.id .inFlight begun :: ⟨.write h.link p words, result⟩ ::
          ⟨.log record, ()⟩ :: c.acknowledgement h p words result := by
  obtain ⟨_, reporting, _, rfl, reported, sending⟩ := run.of_bind
  obtain ⟨begun, inFlight⟩ := report_acts reported
  obtain ⟨started, _, rfl, locking⟩ := sending.of_ask_bind
  obtain ⟨_, _, rfl, writing⟩ := locking.of_ask_bind
  obtain ⟨result, rest, rfl, wrote⟩ := writing.of_ask_bind
  rw [acts_append, inFlight, acts_cons_of_idle rfl, acts_cons_of_idle rfl, acts_cons rfl]
  have captured : (some <$> ask (.frames h.link)).Only fun s => s.isActing = false :=
    .bind (.ask rfl) fun _ => trivial
  have skipped : (pure none : Activity (Option Log.Frames)).Only fun s => s.isActing = false :=
    trivial
  cases result with
  | ok _ =>
    dsimp only at wrote
    split at wrote
    all_goals
      obtain ⟨_, _, _, _, logged, publishing⟩ := logging_acts (by assumption) wrote
      obtain ⟨_, _, rfl, published⟩ := publishing.of_ask_bind
      obtain ⟨rfl, rfl⟩ := performs_pure.mp published
      rw [logged]
      exact ⟨_, _, _, rfl, rfl, rfl, rfl, rfl⟩
  | error fault =>
    dsimp only at wrote
    split at wrote
    all_goals
      obtain ⟨_, _, _, _, logged, ended⟩ := logging_acts (by assumption) wrote
      obtain ⟨rfl, rfl⟩ := performs_pure.mp ended
      rw [logged]
      exact ⟨_, _, _, rfl, rfl, rfl, rfl, rfl⟩

/-- Each execution acts by one of the rules. -/
theorem execute_executed (found : ∀ e ∈ events, Finds registry state e)
    (run : c.execute.Performs events (.done status)) :
    Executed c registry state (acts events) status := by
  obtain ⟨status, dispatching, _, rfl, dispatched, reporting⟩ := run.of_bind
  obtain ⟨_, reports, _, rfl, reported, ending⟩ := reporting.of_bind
  obtain ⟨rfl, rfl⟩ := performs_pure.mp ending
  obtain ⟨time, terminal⟩ := report_acts reported
  obtain ⟨handle, _, rfl, finding⟩ := dispatched.of_ask_bind
  have registered : handle = registry c.channel := found ⟨.find c.channel, handle⟩ (by simp)
  rw [List.append_nil, acts_append, terminal, acts_cons_of_idle rfl]
  cases handle with
  | none =>
    obtain ⟨rfl, rfl⟩ := performs_pure.mp finding
    refine .refused fun h p reached => ?_
    have missing := registered.trans reached.registered
    cases missing
  | some h =>
    obtain ⟨shown, rest, rfl, aiming⟩ := finding.of_ask_bind
    have showing : shown = state h.link := found ⟨.state h.link, shown⟩ (by simp)
    rw [acts_cons_of_idle rfl]
    cases aimed : c.aim h.channel shown with
    | error cause =>
      rw [aimed] at aiming
      obtain ⟨rfl, rfl⟩ := performs_pure.mp aiming
      refine .refused fun h' p reached => ?_
      cases registered.trans reached.registered
      obtain ⟨words, encoded, -⟩ := p.type.encode_isOk reached.number p.order
      rw [aim_eq_ok_iff.mpr ⟨reached.point, reached.writable, showing ▸ reached.taken, encoded⟩]
        at aimed
      cases aimed
    | ok target =>
      obtain ⟨p, words⟩ := target
      rw [aimed] at aiming
      obtain ⟨point, writable, taken, encoded⟩ := aim_eq_ok_iff.mp aimed
      obtain ⟨result, record, begun, rfl, channel, purpose, fault, acting⟩ := send_acts aiming
      rw [acting, List.cons_append, List.cons_append, List.cons_append]
      exact .written ⟨registered.symm, point, writable, showing ▸ taken,
        DataType.isNaN_of_encode encoded⟩ encoded channel purpose fault

/-! ## The account -/

/-- What an execution did to the device, the board, the log and the store. -/
structure Accounted (c : Command) (registry : UInt16 → Option ChannelHandle)
    (state : LinkId → ChannelState) (events : List Event) (status : CommandStatus) : Prop where
  once : (deliveries events).length ≤ 1
  written : deliveries events ≠ [] ↔ ∃ h p, c.Reaches registry state h p
  /-- The words of the value are written to the point that the command reaches. -/
  delivered : ∀ d ∈ deliveries events, ∃ h, c.Reaches registry state h d.point ∧
    h.link = d.link ∧ d.point.type.encode c.value d.point.order = .ok d.words
  acknowledged : status = .acknowledged ↔ ∃ d ∈ deliveries events, d.result = .ok ()
  timedOut : (∃ fault, status = .timedOut fault) ↔
    ∃ d ∈ deliveries events, ∃ fault, d.result = .error fault ∧ fault.isTimeout = true
  failed : (∃ cause, status = .failed cause) ↔
    ∀ d ∈ deliveries events, ∃ fault, d.result = .error fault ∧ fault.isTimeout = false
  /-- The board shows that the command is in flight if it is written, and then how it ended. -/
  posted : ∀ id, statuses id events =
    if c.id = id then (deliveries events).map (fun _ => .inFlight) ++ [status] else []
  /-- There is one record for each write, with its fault. -/
  logged : List.Forall₂ (fun (d : Delivery) (record : Log.Record) =>
    (∃ h, registry c.channel = some h ∧ record.channel = h.channel.id) ∧
      record.purpose = .ofPoint d.point c.id ∧ record.fault = d.fault?)
    (deliveries events) (records events)
  kept : status ≠ .acknowledged → ∀ (s : Store) (time : Int), s.after time events = s
  /-- The store changes at the key of the point only. -/
  stored : status = .acknowledged → ∃ h p words, c.Reaches registry state h p ∧
    p.type.encode c.value p.order = .ok words ∧
    ∀ (s : Store) (time : Int) (key : StoreKey), (s.after time events).get? key =
      if (⟨h.channel.id, p.category, p.id⟩ : StoreKey) = key then
        some ⟨p.acknowledged words c.value, time⟩
      else s.get? key

section

variable {id : String} {time : Instant} {result : Except Fault Unit}

theorem statuses_posted (own : String) (rest : List Event) :
    statuses own (posted id status time :: rest) =
      (if id = own then [status] else []) ++ statuses own rest := by
  by_cases same : id = own
  · simp [statuses, Event.status?, posted, Board.outcomeOf, same]
  · simp [statuses, Event.status?, posted, Board.outcomeOf, same]

/-- An acknowledgement only acts on the store. -/
theorem views_acknowledgement (c : Command) (h : ChannelHandle) (p : Point) (words : List UInt16)
    (result : Except Fault Unit) (rest : List Event) (own : String) :
    deliveries (c.acknowledgement h p words result ++ rest) = deliveries rest ∧
      records (c.acknowledgement h p words result ++ rest) = records rest ∧
      statuses own (c.acknowledgement h p words result ++ rest) = statuses own rest := by
  cases result with
  | _ => exact ⟨rfl, rfl, rfl⟩

theorem statusAfter_eq_acknowledged_iff : statusAfter result = .acknowledged ↔ result = .ok () := by
  cases result with
  | ok _ => exact ⟨fun _ => rfl, fun _ => rfl⟩
  | error fault =>
    unfold statusAfter
    dsimp only
    split
    · exact ⟨nofun, nofun⟩
    · exact ⟨nofun, nofun⟩

theorem exists_statusAfter_eq_timedOut_iff :
    (∃ fault, statusAfter result = .timedOut fault) ↔
      ∃ fault, result = .error fault ∧ fault.isTimeout = true := by
  cases result with
  | ok _ => simp [statusAfter]
  | error fault =>
    unfold statusAfter
    dsimp only
    split
    next timeout => simpa using timeout
    next other => simpa using other

theorem exists_statusAfter_eq_failed_iff :
    (∃ cause, statusAfter result = .failed cause) ↔
      ∃ fault, result = .error fault ∧ fault.isTimeout = false := by
  cases result with
  | ok _ => simp [statusAfter]
  | error fault =>
    unfold statusAfter
    dsimp only
    split
    next timeout => simpa using timeout
    next other => simpa using other

end

/-- What a command that reaches no point leaves behind. -/
theorem accounted_of_refused {cause : CommandFault}
    (unreached : ∀ h p, ¬ c.Reaches registry state h p) (unwritten : deliveries events = [])
    (unlogged : records events = [])
    (board : ∀ id, statuses id events = if c.id = id then [.failed cause] else [])
    (kept : ∀ (s : Store) (time : Int), s.after time events = s) :
    Accounted c registry state events (.failed cause) where
  once := by simp [unwritten]
  written := by simp [unwritten, unreached]
  delivered := by simp [unwritten]
  acknowledged := by simp [unwritten]
  timedOut := by simp [unwritten]
  failed := by simp [unwritten]
  posted id := by rw [board, unwritten]; rfl
  logged := by rw [unwritten, unlogged]; exact .nil
  kept _ := kept
  stored := nofun

/-- What a command that reaches a point leaves behind. -/
theorem accounted_of_written {h : ChannelHandle} {p : Point} {words : List UInt16}
    {result : Except Fault Unit} {record : Log.Record} (reached : c.Reaches registry state h p)
    (encoded : p.type.encode c.value p.order = .ok words) (channel : record.channel = h.channel.id)
    (purpose : record.purpose = .ofPoint p c.id)
    (fault : record.fault = Delivery.fault? ⟨h.link, p, words, result⟩)
    (written : deliveries events = [⟨h.link, p, words, result⟩]) (logged : records events = [record])
    (board : ∀ id, statuses id events = if c.id = id then [.inFlight, statusAfter result] else [])
    (kept : ∀ (s : Store) (time : Int),
      s.after time events = s.after time (c.acknowledgement h p words result)) :
    Accounted c registry state events (statusAfter result) where
  once := by simp [written]
  written := by
    rw [written]
    exact ⟨fun _ => ⟨h, p, reached⟩, fun _ => List.cons_ne_nil _ _⟩
  delivered d member := by
    rw [written] at member
    cases List.mem_singleton.mp member
    exact ⟨h, reached, rfl, encoded⟩
  acknowledged := by simp [written, statusAfter_eq_acknowledged_iff]
  timedOut := by simp [written, exists_statusAfter_eq_timedOut_iff]
  failed := by simp [written, exists_statusAfter_eq_failed_iff]
  posted id := by rw [board, written]; rfl
  logged := by
    rw [written, logged]
    exact .cons ⟨⟨h, reached.registered, channel⟩, purpose, fault⟩ .nil
  kept refused s time := by
    rw [kept]
    cases result with
    | ok _ => exact absurd rfl refused
    | error fault => rfl
  stored acknowledged := by
    cases statusAfter_eq_acknowledged_iff.mp acknowledged
    refine ⟨h, p, words, reached, encoded, fun s time key => ?_⟩
    have put : s.after time (c.acknowledgement h p words (.ok ())) =
      s.writeAll [ackWrite h.channel.id p (p.acknowledged words c.value)] time := rfl
    rw [kept, put, Store.get?_writeAll, valueOf?_ackWrite]
    split
    · rfl
    · rfl

/-- What acts is accounted for, and with it everything. -/
theorem Executed.accounted (h : Executed c registry state (acts events) status) :
    Accounted c registry state events status := by
  generalize acted : acts events = acting at h
  cases h with
  | @refused cause time unreached =>
    refine accounted_of_refused unreached ?_ ?_ (fun id => ?_) fun s time => ?_
    · rw [← deliveries_acts, acted]
      rfl
    · rw [← records_acts, acted]
      rfl
    · rw [← statuses_acts, acted, statuses_posted]
      exact List.append_nil _
    · rw [← Store.after_acts, acted]
      rfl
  | @written h p words result record begun ended reached encoded channel purpose fault =>
    have tail (id : String) := views_acknowledgement c h p words result
      [Command.posted c.id (statusAfter result) ended] id
    refine accounted_of_written reached encoded channel purpose fault ?_ ?_ (fun id => ?_)
      fun s time => ?_
    · rw [← deliveries_acts, acted]
      exact congrArg (_ :: ·) (tail c.id).1
    · rw [← records_acts, acted]
      exact congrArg (_ :: ·) (tail c.id).2.1
    · rw [← statuses_acts, acted, statuses_posted]
      have board := (tail id).2.2
      rw [statuses_posted] at board
      refine (congrArg (_ ++ ·) board).trans ?_
      split
      · rfl
      · rfl
    · rw [← Store.after_acts, acted]
      exact List.foldl_append

/-- An execution writes once, if the command reaches a point, and not otherwise.  The write decides
how the command ends; it is put in flight before and logged after, and only what was acknowledged is
stored. -/
theorem execute_accounted (found : ∀ e ∈ events, Finds registry state e)
    (run : c.execute.Performs events (.done status)) : Accounted c registry state events status :=
  (execute_executed found run).accounted

/-- A set value for the flaky device. -/
def tardy : Command := ⟨7, 1, .ofNat 5, "set"⟩

/-- The device does not confirm the write in time. -/
def tardyAnswer : (s : Step) → s.Answer
  | .write .. => .error (.timeout 3000 "write response")
  | s => Poll.flakyAnswer s

/-- The execution of the command, and how it ends. -/
def tardyExecution : List Event × CommandStatus := tardy.execute.trace tardyAnswer

/-- The write is made and logged once, and nothing is stored. -/
theorem tardy_accounted :
    (∀ e ∈ tardyExecution.1, Finds (fun _ => some ⟨Poll.flaky, 0⟩) (fun _ => .connecting) e) ∧
      tardy.execute.Performs tardyExecution.1 (.done tardyExecution.2) ∧
      (deliveries tardyExecution.1).map Delivery.words = [[5]] ∧
      (records tardyExecution.1).length = 1 ∧
      statuses tardy.id tardyExecution.1 = [.inFlight, .timedOut (.timeout 3000 "write response")] ∧
      ∀ (s : Store) (time : Int), s.after time tardyExecution.1 = s := by
  have found : ∀ e ∈ tardyExecution.1,
      Finds (fun _ => some ⟨Poll.flaky, 0⟩) (fun _ => .connecting) e := fun e he => by
    obtain ⟨step, answer⟩ := e
    have answered : answer = tardyAnswer step := Activity.answer_of_trace tardyAnswer _ _ he
    subst answered
    cases step with
    | find _ | state _ => rfl
    | _ => trivial
  have run : tardy.execute.Performs tardyExecution.1 (.done tardyExecution.2) :=
    Activity.performs_trace tardyAnswer _
  have ended : tardyExecution.2 = .timedOut (.timeout 3000 "write response") := by decide +kernel
  have written : (deliveries tardyExecution.1).map Delivery.words = [[5]] := by decide +kernel
  have account := execute_accounted found run
  have count : (deliveries tardyExecution.1).length = 1 := by
    simpa using congrArg List.length written
  obtain ⟨d, one⟩ := List.length_eq_one_iff.mp count
  have board := account.posted tardy.id
  rw [if_pos rfl, one, ended] at board
  exact ⟨found, run, written, account.logged.length_eq.symm.trans count, board,
    account.kept (by rw [ended]; nofun)⟩

end Command

end Fieldbus
