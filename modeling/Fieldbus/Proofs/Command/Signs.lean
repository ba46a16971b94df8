import Mathlib.Data.List.Nodup
import Fieldbus.Proofs.Command.Acknowledgement
import Fieldbus.Proofs.Command.Queueing

/-!
# Signs of commands

What an event means for one command is a sign, and what a submitter and an executor do to a command
is a short list of signs.  A submitter puts down that the command is queued, sends it, and puts down
that it failed if it was not taken (`Command.submitAll_signs`).  An executor takes the command off
the queue, perhaps puts down that it is in flight, and puts down its end; or it takes the command
off the queue when it closes it, and puts down that it failed (`Command.Served`).
-/

namespace Fieldbus

open Activity (Only Performs ask)

/-! ## Signs -/

/-- What an event means for a command. -/
inductive Sign where
  /-- A status is put on the board. -/
  | status (status : CommandStatus)
  /-- It is sent to the queue, and taken or not. -/
  | offered (taken : Bool)
  /-- It leaves the queue to be executed. -/
  | received
  /-- It leaves the queue, not to be executed. -/
  | refused
deriving DecidableEq

def Event.sign? (id : String) : Event → Option Sign
  | ⟨.post outcome, _⟩ => if outcome.command = id then some (.status outcome.status) else none
  | ⟨.send c, taken⟩ => if c.id = id then some (.offered taken) else none
  | ⟨.receive, some c⟩ => if c.id = id then some .received else none
  | ⟨.closeQueue, left⟩ => if id ∈ left.map Command.id then some .refused else none
  | _ => none

/-- What the events mean for a command, one after another. -/
def signs (id : String) (events : List Event) : List Sign := events.filterMap (Event.sign? id)

@[simp] theorem signs_nil (id : String) : signs id [] = [] := rfl

@[simp] theorem signs_append (id : String) (earlier later : List Event) :
    signs id (earlier ++ later) = signs id earlier ++ signs id later := List.filterMap_append

theorem signs_cons (id : String) (e : Event) (rest : List Event) :
    signs id (e :: rest) = (e.sign? id).toList ++ signs id rest := by
  unfold signs
  cases found : e.sign? id with
  | none => rw [List.filterMap_cons_none found]; rfl
  | some sign => rw [List.filterMap_cons_some found]; rfl

def Sign.status? : Sign → Option CommandStatus
  | .status s => some s
  | _ => none

theorem status?_eq_sign? (id : String) (e : Event) :
    e.status? id = (e.sign? id).bind Sign.status? := by
  obtain ⟨step, answer⟩ := e
  cases step with
  | post outcome =>
    simp only [Event.status?, Event.sign?]
    split
    · rfl
    · rfl
  | send c =>
    simp only [Event.status?, Event.sign?]
    split
    · rfl
    · rfl
  | receive =>
    cases answer with
    | none => rfl
    | some c =>
      simp only [Event.status?, Event.sign?]
      split
      · rfl
      · rfl
  | closeQueue =>
    simp only [Event.status?, Event.sign?]
    split
    · rfl
    · rfl
  | _ => rfl

/-- The statuses of a command are among its signs. -/
theorem statuses_eq_signs (id : String) (events : List Event) :
    statuses id events = (signs id events).filterMap Sign.status? := by
  rw [statuses, signs, List.filterMap_filterMap]
  exact List.filterMap_congr fun e _ => status?_eq_sign? id e

/-- A command that was taken has entered the queue. -/
theorem entered?_of_sign? {id : String} {e : Event} (sign : e.sign? id = some (.offered true)) :
    ∃ c, e.entered? = some c ∧ c.id = id := by
  obtain ⟨step, answer⟩ := e
  cases step with
  | send c =>
    simp only [Event.sign?] at sign
    split at sign
    next same =>
      cases sign
      exact ⟨c, rfl, same⟩
    next => cases sign
  | post outcome =>
    simp only [Event.sign?] at sign
    split at sign
    · cases sign
    · cases sign
  | receive =>
    cases answer with
    | none => cases sign
    | some c =>
      simp only [Event.sign?] at sign
      split at sign
      · cases sign
      · cases sign
  | closeQueue =>
    simp only [Event.sign?] at sign
    split at sign
    · cases sign
    · cases sign
  | _ => cases sign

/-- Whether a step means nothing for any command. -/
def Step.isSilent : Step → Bool
  | .post _ | .send _ | .receive | .closeQueue => false
  | _ => true

theorem sign?_of_isSilent {e : Event} (silent : e.step.isSilent = true) (id : String) :
    e.sign? id = none := by
  obtain ⟨step, answer⟩ := e
  cases step with
  | post _ | send _ | receive | closeQueue => cases silent
  | _ => rfl

theorem signs_cons_of_isSilent {e : Event} (silent : e.step.isSilent = true) {id : String}
    {rest : List Event} : signs id (e :: rest) = signs id rest :=
  List.filterMap_cons_none (sign?_of_isSilent silent id)

theorem signs_of_only {α : Type} {a b : Activity α} {events : List Event}
    (silent : a.Only fun s => s.isSilent = true) (run : a.Performs events b) (id : String) :
    signs id events = [] :=
  List.filterMap_eq_nil_iff.mpr fun e he => sign?_of_isSilent (silent.of_performs run e he) id

/-- Whether a step is one of those by which commands are executed and their statuses put down. -/
def Step.isExecuting : Step → Bool
  | .find _ | .state _ | .lock _ | .write .. | .frames _ | .unlock _ | .now | .clock | .log _
  | .publish _ | .post _ | .announce _ => true
  | _ => false

theorem Step.isQueueing_of_isExecuting {s : Step} (executing : s.isExecuting = true) :
    s.isQueueing = false := by
  cases s with
  | send _ | receive | closeQueue => cases executing
  | _ => rfl

/-! ## Executing -/

namespace Command

variable {c : Command} {id : String} {events : List Event}

theorem report_signs {command : String} {status : CommandStatus}
    (run : (report command status).Performs events (.done ())) :
    signs id events = if command = id then [.status status] else [] := by
  obtain ⟨time, _, rfl, posting⟩ := run.of_ask_bind
  obtain ⟨_, rest, rfl, announcing⟩ := posting.of_ask_bind
  have silent : signs id rest = [] := by
    refine signs_of_only ?_ announcing id
    split
    · exact .ask rfl
    · trivial
  rw [signs_cons_of_isSilent rfl, signs_cons, silent, List.append_nil]
  by_cases same : command = id
  · simp [Event.sign?, Board.outcomeOf, same]
  · simp [Event.sign?, Board.outcomeOf, same]

theorem isTerminal_statusAfter (result : Except Fault Unit) :
    (statusAfter result).isTerminal = true := by
  cases result with
  | ok _ => rfl
  | error fault =>
    unfold statusAfter
    dsimp only
    split
    · rfl
    · rfl

/-- A write ends its command. -/
theorem send_ends (c : Command) (h : ChannelHandle) (p : Point) (words : List UInt16) :
    (c.send h p words).Ends fun status => status.isTerminal = true := by
  refine .after (fun _ => .after (fun _ => .after (fun _ => .after (fun result => ?_) _) _) _) _
  have ended : (pure (statusAfter result) : Activity CommandStatus).Ends
      fun status => status.isTerminal = true := isTerminal_statusAfter result
  dsimp only
  split
  all_goals
    refine .after (fun _ => .after (fun _ => .after (fun _ => .after (fun _ => ?_) _) _) _) _
    refine .after (fun _ => ?_) _
    cases result with
    | ok _ => exact .after (fun _ => ended) _
    | error fault => exact ended

/-- A write only means for its command that it is in flight. -/
theorem send_signs {h : ChannelHandle} {p : Point} {words : List UInt16} {status : CommandStatus}
    (run : (c.send h p words).Performs events (.done status)) :
    signs id events = if c.id = id then [.status .inFlight] else [] := by
  obtain ⟨_, reporting, rest, rfl, reported, writing⟩ := run.of_bind
  have silent : signs id rest = [] := by
    refine signs_of_only ?_ writing id
    have captured : (some <$> ask (.frames h.link)).Only fun s => s.isSilent = true :=
      .bind (.ask rfl) fun _ => trivial
    have skipped : (pure none : Activity (Option Log.Frames)).Only fun s => s.isSilent = true :=
      trivial
    refine .ask_bind rfl fun _ => .ask_bind rfl fun _ => .ask_bind rfl fun result => ?_
    cases result with
    | error fault =>
      dsimp only
      split
      all_goals
        refine .bind (by assumption) fun _ => .ask_bind rfl fun _ => .ask_bind rfl fun _ => ?_
        exact .ask_bind rfl fun _ => .ask_bind rfl fun _ => trivial
    | ok _ =>
      dsimp only
      split
      all_goals
        refine .bind (by assumption) fun _ => .ask_bind rfl fun _ => .ask_bind rfl fun _ => ?_
        exact .ask_bind rfl fun _ => .ask_bind rfl fun _ => .ask_bind rfl fun _ => trivial
  rw [signs_append, report_signs reported, silent, List.append_nil]

/-- The signs of a command that is executed.  It may be in flight before it ends. -/
def execution (flight : Bool) (status : CommandStatus) : List Sign :=
  (if flight then [.status .inFlight] else []) ++ [.status status]

theorem dispatch_signs {status : CommandStatus}
    (run : c.dispatch.Performs events (.done status)) :
    status.isTerminal = true ∧
      ∃ flight : Bool, ∀ id, signs id events =
        if c.id = id then (if flight then [.status .inFlight] else []) else [] := by
  obtain ⟨found, _, rfl, finding⟩ := run.of_ask_bind
  cases found with
  | none =>
    obtain ⟨rfl, rfl⟩ := Activity.performs_pure.mp finding
    exact ⟨rfl, false, fun id => by rw [signs_cons_of_isSilent rfl]; simp⟩
  | some h =>
    obtain ⟨state, rest, rfl, aiming⟩ := finding.of_ask_bind
    have later (id : String) : signs id (⟨.find c.channel, some h⟩ :: ⟨.state h.link, state⟩ :: rest)
        = signs id rest := by
      rw [signs_cons_of_isSilent rfl, signs_cons_of_isSilent rfl]
    cases aimed : c.aim h.channel state with
    | error cause =>
      rw [aimed] at aiming
      obtain ⟨rfl, rfl⟩ := Activity.performs_pure.mp aiming
      exact ⟨rfl, false, fun id => by rw [later]; simp⟩
    | ok target =>
      obtain ⟨p, words⟩ := target
      rw [aimed] at aiming
      have writing : (c.send h p words).Performs rest (.done status) := aiming
      refine ⟨(send_ends c h p words).of_performs writing, true, fun id => ?_⟩
      rw [later, send_signs writing, if_pos rfl]

/-- The executor puts the end of a command on the board. -/
theorem execute_signs {status : CommandStatus}
    (run : c.execute.Performs events (.done status)) :
    status.isTerminal = true ∧
      ∃ flight : Bool, ∀ id, signs id events = if c.id = id then execution flight status else [] := by
  obtain ⟨ended, earlier, rest, rfl, dispatched, reporting⟩ := run.of_bind
  obtain ⟨terminal, flight, before⟩ := dispatch_signs dispatched
  obtain ⟨_, reports, _, rfl, reported, ending⟩ := reporting.of_bind
  obtain ⟨rfl, rfl⟩ := Activity.performs_pure.mp ending
  refine ⟨terminal, flight, fun id => ?_⟩
  rw [List.append_nil, signs_append, before, report_signs reported]
  split
  · rfl
  · rfl

theorem refuseAll_signs {left : List Command}
    (run : (refuseAll left).Performs events (.done ())) :
    signs id events =
      List.replicate ((left.map Command.id).count id) (.status (.failed .executorStopped)) := by
  induction left generalizing events with
  | nil =>
    obtain ⟨rfl, -⟩ := Activity.performs_pure.mp run
    rfl
  | cons c rest ih =>
    obtain ⟨_, earlier, later, rfl, reported, refusing⟩ := run.of_bind
    rw [signs_append, report_signs reported, ih refusing, List.map_cons, List.count_cons]
    by_cases same : c.id = id
    · simp [same, List.replicate_succ]
    · simp [same]

/-! ## Submitting -/

/-- The signs of a command that is submitted. -/
def submission : (taken : Bool) → List Sign
  | true => [.status .queued, .offered true]
  | false => [.status .queued, .offered false, .status (.failed .executorStopped)]

theorem submit_signs {taken : Bool} (run : c.submit.Performs events (.done taken)) :
    signs id events = if c.id = id then submission taken else [] := by
  obtain ⟨_, queueing, _, rfl, queued, sending⟩ := run.of_bind
  obtain ⟨answer, rest, rfl, failing⟩ := sending.of_ask_bind
  rw [signs_append, report_signs queued, signs_cons]
  cases answer with
  | true =>
    obtain ⟨rfl, rfl⟩ := Activity.performs_pure.mp failing
    by_cases same : c.id = id
    · simp [Event.sign?, submission, same]
    · simp [Event.sign?, same]
  | false =>
    obtain ⟨_, reports, _, rfl, failed, ending⟩ := failing.of_bind
    obtain ⟨rfl, rfl⟩ := Activity.performs_pure.mp ending
    rw [List.append_nil, report_signs failed]
    by_cases same : c.id = id
    · simp [Event.sign?, submission, same]
    · simp [Event.sign?, same]

theorem submission_nodup (taken : Bool) : (submission taken).Nodup := by
  cases taken with
  | true => decide
  | false => decide

/-- A submission that was taken is through. -/
theorem eq_submission_of_offered {given : List Sign} {taken : Bool}
    (begun : given <+: submission taken) (offered : .offered true ∈ given) :
    given = submission true := by
  cases taken with
  | false => exact absurd (begun.subset offered) (by decide)
  | true =>
    have begun : given <+: [.status .queued] ++ [.offered true] := begun
    rcases List.prefix_concat_iff.mp begun with whole | begun
    · exact whole
    · exact absurd (begun.subset offered) (by decide)

/-- A submitter gives no signs of commands that are not its own, and all signs of its own. -/
theorem submitAll_signs {commands : List Command} {taken : List Bool}
    (run : (submitAll commands).Performs events (.done taken)) :
    (id ∉ commands.map Command.id → signs id events = []) ∧
      ((commands.map Command.id).Nodup → id ∈ commands.map Command.id →
        ∃ taken, signs id events = submission taken) := by
  induction commands generalizing events taken with
  | nil =>
    obtain ⟨rfl, -⟩ := Activity.performs_pure.mp run
    exact ⟨fun _ => rfl, fun _ own => absurd own List.not_mem_nil⟩
  | cons c rest ih =>
    obtain ⟨first, earlier, _, rfl, submitted, submitting⟩ := run.of_bind
    obtain ⟨others, later, _, rfl, submittingRest, ending⟩ := submitting.of_bind
    obtain ⟨rfl, -⟩ := Activity.performs_pure.mp ending
    obtain ⟨foreign, own⟩ := ih submittingRest
    rw [List.append_nil, signs_append, submit_signs submitted, List.map_cons]
    refine ⟨fun absent => ?_, fun distinct member => ?_⟩
    · obtain ⟨other, absent⟩ := List.ne_and_not_mem_of_not_mem_cons absent
      rw [if_neg (Ne.symm other), foreign absent]
      rfl
    · obtain ⟨absent, distinct⟩ := List.nodup_cons.mp distinct
      by_cases same : c.id = id
      · rw [if_pos same, foreign (same ▸ absent), List.append_nil]
        exact ⟨first, rfl⟩
      · rw [if_neg same, List.nil_append]
        exact own distinct ((List.mem_cons.mp member).resolve_left (Ne.symm same))

/-! ## Serving -/

/-- An executor that is through has executed these commands and refused those. -/
inductive Served : List Command → List Event → List Command → Prop
  /-- It retires, with or without having asked for a next command. -/
  | retired {polled work : List Event} {left : List Command} :
    polled = [] ∨ polled = [⟨.receive, (none : Option Command)⟩] →
    (refuseAll left).Performs work (.done ()) →
    Served [] (polled ++ ⟨.closeQueue, left⟩ :: work) left
  /-- It executes a command, and then others. -/
  | served {c : Command} {status : CommandStatus} {work events : List Event}
      {others refused : List Command} :
    c.execute.Performs work (.done status) → Served others events refused →
    Served (c :: others) (⟨.receive, some c⟩ :: work ++ events) refused

theorem serve_served {fuel : Nat} (run : (serve fuel).Performs events (.done ())) :
    ∃ executed refused, Served executed events refused := by
  induction fuel generalizing events with
  | zero =>
    obtain ⟨left, work, rfl, refusing⟩ := run.of_ask_bind
    exact ⟨[], left, .retired (.inl rfl) refusing⟩
  | succ fuel ih =>
    obtain ⟨more, earlier, later, rfl, next, rest⟩ := run.of_bind
    obtain ⟨command, work, rfl, executing⟩ := next.of_ask_bind
    cases command with
    | none =>
      obtain ⟨rfl, rfl⟩ := Activity.performs_pure.mp executing
      obtain ⟨left, work, rfl, refusing⟩ := rest.of_ask_bind
      exact ⟨[], left, .retired (.inr rfl) refusing⟩
    | some c =>
      obtain ⟨status, work, _, rfl, executed, ending⟩ := executing.of_bind
      obtain ⟨rfl, rfl⟩ := Activity.performs_pure.mp ending
      obtain ⟨others, refused, served⟩ := ih rest
      rw [List.append_nil]
      exact ⟨c :: others, refused, .served executed served⟩

/-- The statuses of a command from its submission to its end. -/
def life (flight : Bool) (status : CommandStatus) : List CommandStatus :=
  .queued :: (if flight then [.inFlight] else []) ++ [status]

/-! ## What the two keep from -/

theorem report_executing (id : String) (status : CommandStatus) :
    (report id status).Only fun s => s.isExecuting = true :=
  report_keeps (P := fun s => s.isExecuting = true) rfl (fun _ => rfl) (fun _ => rfl) id status

theorem send_executing (c : Command) (h : ChannelHandle) (p : Point) (words : List UInt16) :
    (c.send h p words).Only fun s => s.isExecuting = true := by
  have captured : (some <$> ask (.frames h.link)).Only fun s => s.isExecuting = true :=
    .bind (.ask rfl) fun _ => trivial
  have skipped : (pure none : Activity (Option Log.Frames)).Only fun s => s.isExecuting = true :=
    trivial
  refine .bind (report_executing ..) fun _ => .ask_bind rfl fun _ => .ask_bind rfl fun _ => ?_
  refine .ask_bind rfl fun result => ?_
  dsimp only
  split
  all_goals
    refine .bind (by assumption) fun _ => .ask_bind rfl fun _ => .ask_bind rfl fun _ => ?_
    refine .ask_bind rfl fun _ => .ask_bind rfl fun _ => ?_
    cases result with
    | ok _ => exact .ask_bind rfl fun _ => trivial
    | error fault => trivial

theorem execute_executing (c : Command) : c.execute.Only fun s => s.isExecuting = true := by
  refine .bind (.ask_bind rfl fun found => ?_) fun _ => .bind (report_executing ..) fun _ => trivial
  cases found with
  | none => trivial
  | some h =>
    refine .ask_bind rfl fun state => ?_
    cases c.aim h.channel state with
    | error cause => trivial
    | ok target => exact send_executing c h target.1 target.2

theorem refuseAll_executing (left : List Command) :
    (refuseAll left).Only fun s => s.isExecuting = true :=
  refuseAll_keeps (P := fun s => s.isExecuting = true) rfl (fun _ => rfl) (fun _ => rfl) left

/-- Submitters take nothing off the queue, and put their own commands on it. -/
theorem submitAll_only (commands : List Command) :
    (submitAll commands).Only fun s => s.isExecuting = true ∨ ∃ c ∈ commands, s = .send c := by
  induction commands with
  | nil => trivial
  | cons c rest ih =>
    have reporting (status : CommandStatus) :
        (report c.id status).Only fun s => s.isExecuting = true ∨ ∃ d ∈ c :: rest, s = .send d :=
      (report_executing c.id status).mono fun _ => .inl
    have others := ih.mono (Q := fun s => s.isExecuting = true ∨ ∃ d ∈ c :: rest, s = .send d)
      fun s => .imp_right fun ⟨d, own, sending⟩ => ⟨d, List.mem_cons_of_mem _ own, sending⟩
    refine .bind (.bind (reporting _) fun _ => .ask_bind (.inr ⟨c, List.mem_cons_self, rfl⟩)
      fun taken => ?_) fun _ => .bind others fun _ => trivial
    cases taken with
    | true => trivial
    | false => exact .bind (reporting _) fun _ => trivial

/-- An executor puts nothing on the queue. -/
theorem serve_only (fuel : Nat) :
    (serve fuel).Only fun s => s.isExecuting = true ∨ s = .receive ∨ s = .closeQueue := by
  have retiring : retire.Only fun s => s.isExecuting = true ∨ s = .receive ∨ s = .closeQueue :=
    .ask_bind (.inr (.inr rfl)) fun left => (refuseAll_executing left).mono fun _ => .inl
  induction fuel with
  | zero => exact retiring
  | succ fuel ih =>
    refine .bind (.ask_bind (.inr (.inl rfl)) fun next => ?_) fun more => ?_
    · cases next with
      | none => trivial
      | some c => exact .bind ((execute_executing c).mono fun _ => .inl) fun _ => trivial
    · cases more with
      | true => exact ih
      | false => exact retiring

/-! ## What became of the commands -/

/-- The signs that the executor gives of a command that left the queue. -/
inductive Service : List Sign → Prop
  /-- It is not executed, and fails. -/
  | refused : Service [.refused, .status (.failed .executorStopped)]
  /-- It is executed, and ends. -/
  | executed {flight : Bool} {status : CommandStatus} :
    status.isTerminal = true → Service (.received :: execution flight status)

/-- A command that is submitted and served has a whole life. -/
theorem Service.life {course : List Sign} (h : Service course) :
    ∃ flight status, status.isTerminal = true ∧
      (submission true ++ course).filterMap Sign.status? = Command.life flight status ∧
      (course = [.refused, .status (.failed .executorStopped)] →
        status = .failed .executorStopped) := by
  cases h with
  | refused => exact ⟨false, .failed .executorStopped, rfl, rfl, fun _ => rfl⟩
  | @executed flight status terminal =>
    refine ⟨flight, status, terminal, ?_, nofun⟩
    cases flight with
    | true => rfl
    | false => rfl

namespace Served

variable {cs refused : List Command}

theorem executed_eq (h : Served cs events refused) : executed events = cs := by
  induction h with
  | @retired polled work left asked refusing =>
    have quiet := executed_eq_nil fun e he =>
      Step.isQueueing_of_isExecuting ((refuseAll_executing left).of_performs refusing e he)
    rcases asked with rfl | rfl
    · exact quiet
    · exact quiet
  | @served c _ work _ _ _ executing _ ih =>
    have quiet := executed_eq_nil fun e he =>
      Step.isQueueing_of_isExecuting ((execute_executing c).of_performs executing e he)
    rw [executed_append, ih]
    exact congrArg (c :: · ++ _) quiet

theorem takenOut_eq (h : Served cs events refused) : takenOut events = cs ++ refused := by
  induction h with
  | @retired polled work left asked refusing =>
    have quiet := takenOut_eq_nil fun e he =>
      Step.isQueueing_of_isExecuting ((refuseAll_executing left).of_performs refusing e he)
    rw [takenOut_append, takenOut_cons, quiet, List.append_nil]
    rcases asked with rfl | rfl
    · rfl
    · rfl
  | @served c _ work _ _ _ executing _ ih =>
    have quiet := takenOut_eq_nil fun e he =>
      Step.isQueueing_of_isExecuting ((execute_executing c).of_performs executing e he)
    rw [takenOut_append, takenOut_cons, quiet, ih, List.append_nil]
    rfl

/-- What the executor neither executes nor refuses, it gives no sign of. -/
theorem signs_of_not_mem (h : Served cs events refused)
    (absent : id ∉ (cs ++ refused).map Command.id) : signs id events = [] := by
  induction h with
  | @retired polled work left asked refusing =>
    have never : (left.map Command.id).count id = 0 := List.count_eq_zero_of_not_mem absent
    have closing : (⟨.closeQueue, left⟩ : Event).sign? id = none := if_neg absent
    rw [signs_append, signs_cons, refuseAll_signs refusing, never, closing]
    rcases asked with rfl | rfl
    · rfl
    · rfl
  | @served c status work rest others refused executing _ ih =>
    rw [List.cons_append, List.map_cons] at absent
    obtain ⟨other, absent⟩ := List.ne_and_not_mem_of_not_mem_cons absent
    obtain ⟨-, flight, worked⟩ := execute_signs executing
    have received : (⟨.receive, some c⟩ : Event).sign? id = none := if_neg (Ne.symm other)
    rw [signs_append, signs_cons, ih absent, worked, if_neg (Ne.symm other), received]
    rfl

/-- A command that is executed is received and ends. -/
theorem signs_of_executed (h : Served cs events refused)
    (distinct : ((cs ++ refused).map Command.id).Nodup) (member : id ∈ cs.map Command.id) :
    ∃ flight status, status.isTerminal = true ∧
      signs id events = .received :: execution flight status := by
  induction h with
  | retired => exact absurd member List.not_mem_nil
  | @served c status work rest others refused executing served ih =>
    rw [List.cons_append, List.map_cons] at distinct
    obtain ⟨absent, distinct⟩ := List.nodup_cons.mp distinct
    obtain ⟨terminal, flight, worked⟩ := execute_signs executing
    rw [signs_append, signs_cons, worked]
    by_cases same : c.id = id
    · have received : (⟨.receive, some c⟩ : Event).sign? id = some .received := if_pos same
      refine ⟨flight, status, terminal, ?_⟩
      rw [if_pos same, received, served.signs_of_not_mem (same ▸ absent), List.append_nil]
      rfl
    · have received : (⟨.receive, some c⟩ : Event).sign? id = none := if_neg same
      rw [if_neg same, received]
      exact ih distinct ((List.mem_cons.mp member).resolve_left (Ne.symm same))

/-- A command that is refused fails. -/
theorem signs_of_refused (h : Served cs events refused)
    (distinct : ((cs ++ refused).map Command.id).Nodup) (member : id ∈ refused.map Command.id) :
    signs id events = [.refused, .status (.failed .executorStopped)] := by
  induction h with
  | @retired polled work left asked refusing =>
    have once : (left.map Command.id).count id = 1 := List.count_eq_one_of_mem distinct member
    have closing : (⟨.closeQueue, left⟩ : Event).sign? id = some .refused := if_pos member
    rw [signs_append, signs_cons, refuseAll_signs refusing, once, closing]
    rcases asked with rfl | rfl
    · rfl
    · rfl
  | @served c status work rest others refused executing served ih =>
    rw [List.cons_append, List.map_cons] at distinct
    obtain ⟨absent, distinct⟩ := List.nodup_cons.mp distinct
    have other : c.id ≠ id := by
      rintro rfl
      exact absent (by rw [List.map_append]; exact List.mem_append_right _ member)
    obtain ⟨-, flight, worked⟩ := execute_signs executing
    have received : (⟨.receive, some c⟩ : Event).sign? id = none := if_neg other
    rw [signs_append, signs_cons, ih distinct member, worked, if_neg other, received]
    rfl

/-- What the executor does to a command that left the queue. -/
theorem signs_of_mem (h : Served cs events refused)
    (distinct : ((cs ++ refused).map Command.id).Nodup)
    (member : id ∈ (cs ++ refused).map Command.id) :
    Service (signs id events) ∧
      (id ∉ cs.map Command.id →
        signs id events = [.refused, .status (.failed .executorStopped)]) := by
  rw [List.map_append] at member
  by_cases executed : id ∈ cs.map Command.id
  · obtain ⟨flight, status, terminal, all⟩ := h.signs_of_executed distinct executed
    rw [all]
    exact ⟨.executed terminal, fun never => absurd executed never⟩
  · have all := h.signs_of_refused distinct ((List.mem_append.mp member).resolve_left executed)
    rw [all]
    exact ⟨.refused, fun _ => rfl⟩

/-- In the end the queue is closed. -/
theorem closes (h : Served cs events refused) : ∃ left, ⟨.closeQueue, left⟩ ∈ events := by
  induction h with
  | @retired _ _ left => exact ⟨left, List.mem_append_right _ List.mem_cons_self⟩
  | served _ _ ih =>
    obtain ⟨left, closing⟩ := ih
    exact ⟨left, List.mem_append_right _ closing⟩

end Served

end Command

end Fieldbus
