import Fieldbus.Proofs.Command.Execution
import Fieldbus.Proofs.Poll.Account

/-!
# One record for each batch

A batch that is read is tried at least once and at most as often as the channel allows, and leaves
one record, of the last try (`Poll.BatchRecorded`).  A cycle leaves these records in the order of
its plan and nothing else in the log, or the one record of a link that could not be made
(`Poll.CycleRecorded`).

Nothing is asked of the link or of the devices, and a loop may be cancelled whenever it asks.
-/

namespace Fieldbus

theorem Event.record?_of_isAside {e : Event} (aside : e.step.IsAside) : e.record? = none := by
  obtain ⟨step, answer⟩ := e
  cases step with
  | log _ => exact aside.elim
  | _ => rfl

namespace Poll

/-- What reading a batch asks of the link, and what it leaves in the log. -/
structure BatchRecorded (c : Channel) (link : LinkId) (b : Batch) (events : List Event)
    (result : Option (List Reading)) (k : Course c) : Prop where
  batch : k.batch = b
  whole : events = k.events link
  /-- The tries are all that is asked of the link. -/
  reads : events.filterMap Event.read? = k.tries.map (link, b, ·.answer)
  tried : 1 ≤ k.tries.length ∧ k.tries.length ≤ max 1 c.retry.attempts
  /-- No try follows one whose words decode. -/
  last : ∃ earlier, k.tries = earlier ++ [k.last] ∧ ∀ t ∈ earlier, b.readings? t.answer = none
  /-- A batch that fails is given up early only if the loop is cancelled in the pause that is made
  behind the last try. -/
  given : b.readings? k.last.answer = none → k.tries.length < max 1 c.retry.attempts →
    ∃ before asked ended time, events = before ++ k.last.events link b ++ [⟨.now, asked⟩,
      ⟨.pause link (asked + c.retry.delay), true⟩, ⟨.now, ended⟩, ⟨.clock, time⟩,
      ⟨.log k.record, ()⟩]
  result : result = b.readings? k.last.answer
  /-- There is one record, with the outcome of the last try, the number of tries, and the frames
  that were taken with the last answer. -/
  recorded : records events = [k.record] ∧ k.record.channel = c.id ∧
    k.record.purpose = .ofBatch b ∧ k.record.fault = k.last.fault? b ∧
    k.record.attempts = k.tries.length ∧ k.record.frames = k.last.frames?
  captured : ∀ t ∈ k.tries, t.frames?.isSome ↔ c.log.level = .debug

/-- What a cycle asks of the link, and what it leaves in the log. -/
inductive CycleRecorded (c : Channel) (link : LinkId) (plan : Plan) (events : List Event) : Prop
  /-- The batches are read one after another, each with its record, until the loop is cancelled. -/
  | made (courses : List (Course c)) :
    ¬ Unconnected link events → Passes c link events courses →
    courses.map Course.batch <+: plan.batches →
    (courses.length = plan.size ∨ ⟨.isCancelled link, true⟩ ∈ events) →
    records events = courses.map Course.record → CycleRecorded c link plan events
  /-- The link cannot be made, and nothing is read. -/
  | unmade (fault : Fault) (time : Instant) (latency : Nanos) :
    ⟨.connect link, .error fault⟩ ∈ events → events.filterMap Event.read? = [] →
    records events = connectRecords c time latency fault → CycleRecorded c link plan events

section

variable {c : Channel} {link : LinkId} {plan : Plan} {events : List Event}

open Activity (performs_pure ask)

/-- Each course leaves one record. -/
theorem Passes.records {courses : List (Course c)} (h : Passes c link events courses) :
    records events = courses.map Course.record := by
  refine (h.filterMap fun _ => Event.record?_of_isAside).trans ?_
  rw [List.map_eq_flatMap]
  congr 1
  funext k
  rw [k.filterMap_events fun _ => Event.record?_of_isAside]
  simp [Event.record?]

theorem readBatch_recorded {b : Batch} {result : Option (List Reading)}
    (run : (readBatch c link b).Performs events (.done result)) :
    ∃ k : Course c, BatchRecorded c link b events result k := by
  obtain ⟨k, rfl, rfl, rfl⟩ := readBatch_course run
  have one : Passes c link (k.events link) [k] := by simpa using Passes.nil.course k
  refine ⟨k, rfl, rfl, k.reads_events link, ⟨by simp [Course.tries], ?_⟩,
    ⟨k.earlier.map Prod.fst, rfl, ?_⟩, ?_, rfl, ⟨one.records, rfl, rfl, rfl, rfl, rfl⟩, k.captured⟩
  · rw [k.length_tries]
    exact k.bounded
  · intro t member
    obtain ⟨pair, here, rfl⟩ := List.mem_map.mp member
    exact k.failed pair here
  · intro failed fewer
    rw [k.length_tries] at fewer
    cases cut : k.cut? with
    | none =>
      rcases k.whole cut with succeeded | all
      · rw [failed] at succeeded
        cases succeeded
      · exact absurd all (Nat.ne_of_lt fewer)
    | some asked =>
      refine ⟨⟨.now, k.started⟩ :: failures c link k.batch k.earlier, asked, k.ended, k.time, ?_⟩
      simp [Course.events, cut, pauseBehind]

theorem cycleRecorded_of_readPlan {α : Type} {p : Poller α} {tally : Tally}
    (run : (readPlan c link p plan).Performs events (.done tally)) :
    CycleRecorded c link plan events := by
  unfold readPlan at run
  split at run
  next empty =>
    obtain ⟨rfl, rfl⟩ := performs_pure.mp run
    have none : plan.batches = [] := by simpa [Plan.isEmpty] using empty
    exact .made [] (by simp [Unconnected]) .nil (by simp) (.inl (by simp [Plan.size, none])) rfl
  next =>
    obtain ⟨up, earlier, later, rfl, connected, rest⟩ := run.of_bind
    obtain ⟨rfl, silent⟩ | ⟨rfl, fault, before, time, latency, rfl, aside, member⟩ :=
      ensureConnected_cases connected
    · obtain ⟨courses, order, passes, -, complete⟩ := readBatches_passes rest
      have passes := passes.behind fun e he => (silent e he).1
      refine .made courses ?_ passes order ?_ passes.records
      · rw [unconnected_append]
        rintro (⟨fault, member⟩ | unmade)
        · exact (silent _ member).2 fault rfl
        · exact not_unconnected_of_isReading (readBatches_isReading.of_performs rest) unmade
      · exact complete.imp_right fun member => List.mem_append_right _ member
    · obtain ⟨rfl, -⟩ := performs_pure.mp rest
      have unread := (ensureConnected_unconnected connected).1
      have silent : records before = [] :=
        List.filterMap_eq_nil_iff.mpr fun e he => Event.record?_of_isAside (aside e he)
      rw [List.append_nil]
      refine .unmade fault time latency (List.mem_append_left _ member) unread ?_
      rw [records, List.filterMap_append, ← records, silent, List.filterMap_map]
      exact List.filterMap_some

/-- Steps around those of reading the plan make no difference to what is recorded. -/
theorem CycleRecorded.within (h : CycleRecorded c link plan events) {before after : List Event}
    (silent : ∀ e ∈ before ++ after, e.step.IsAside ∧ ∀ fault, e ≠ ⟨.connect link, .error fault⟩) :
    CycleRecorded c link plan (before ++ events ++ after) := by
  obtain ⟨early, late⟩ := List.forall_mem_append.mp silent
  have unseen {β : Type} {f : Event → Option β} (quiet : ∀ e : Event, e.step.IsAside → f e = none) :
      (before ++ events ++ after).filterMap f = events.filterMap f := by
    have first : before.filterMap f = [] :=
      List.filterMap_eq_nil_iff.mpr fun e he => quiet e (early e he).1
    have last : after.filterMap f = [] :=
      List.filterMap_eq_nil_iff.mpr fun e he => quiet e (late e he).1
    rw [List.filterMap_append, List.filterMap_append, first, last, List.append_nil, List.nil_append]
  have logged : records (before ++ events ++ after) = records events :=
    unseen fun _ => Event.record?_of_isAside
  cases h with
  | made courses up passes order complete recorded =>
    refine .made courses ?_ ((passes.behind fun e he => (early e he).1).before
      fun e he => (late e he).1) order ?_ (logged.trans recorded)
    · rw [unconnected_append, unconnected_append]
      rintro ((⟨fault, member⟩ | unmade) | ⟨fault, member⟩)
      · exact (early _ member).2 fault rfl
      · exact up unmade
      · exact (late _ member).2 fault rfl
    · exact complete.imp_right fun member => by simp [member]
  | unmade fault time latency member unread recorded =>
    refine .unmade fault time latency (by simp [member]) ?_ (logged.trans recorded)
    rw [unseen fun _ => Event.read?_of_isAside, unread]

theorem cycle_recorded {α : Type} [DelayNumber α] {p next : Poller α} {report : CycleReport}
    (run : (cycle c link p).Performs events (.done (next, report))) :
    ∃ plan rest, events = ⟨.plan link, plan⟩ :: rest ∧ CycleRecorded c link plan events := by
  obtain ⟨plan, _, rfl, planned⟩ := run.of_ask_bind
  obtain ⟨started, _, rfl, timed⟩ := planned.of_ask_bind
  obtain ⟨tally, middle, _, rfl, passed, rest⟩ := timed.of_bind
  obtain ⟨_, _, rfl, published⟩ := rest.of_ask_bind
  obtain ⟨ended, _, rfl, measured⟩ := published.of_ask_bind
  obtain ⟨_, _, rfl, shown⟩ := measured.of_ask_bind
  obtain ⟨_, _, rfl, last⟩ := shown.of_ask_bind
  obtain ⟨rfl, made⟩ := performs_pure.mp last
  refine ⟨plan, _, rfl, ?_⟩
  show CycleRecorded c link plan ([_, _] ++ middle ++ _)
  exact (cycleRecorded_of_readPlan passed).within (by simp [Step.IsAside])

/-- A batch that is read is tried until its words decode, no more often than the channel allows and
less often only if the loop is cancelled, and is recorded once.  A cycle records just the batches
that it reads, in the order of its plan, or that the link could not be made. -/
theorem batches_recorded {α : Type} [DelayNumber α] (c : Channel) (link : LinkId) :
    (∀ b events result, (readBatch c link b).Performs events (.done result) →
      ∃ k : Course c, BatchRecorded c link b events result k) ∧
    ∀ (p next : Poller α) report events, (cycle c link p).Performs events (.done (next, report)) →
      ∃ plan rest, events = ⟨.plan link, plan⟩ :: rest ∧ CycleRecorded c link plan events :=
  ⟨fun _ _ _ run => readBatch_recorded run, fun _ _ _ _ run => cycle_recorded run⟩

/-- The channel with a point too far off, whose frames are logged. -/
def watched : Channel := { halved with log := { level := .debug } }

def watchedAnswer : (s : Step) → s.Answer
  | .frames _ => ⟨[1, 2], [3]⟩
  | s => halvedAnswer s

/-- What a cycle does that has two batches, of which the second one fails at each try. -/
def watchedCycle : List Event × Poller Binary64 × CycleReport :=
  (cycle watched 0 (.ofChannel watched (.ofNat 2))).trace watchedAnswer

/-- What is done about the second batch. -/
def watchedBatch : List Event × Option (List Reading) :=
  (readBatch watched 0 (.single 1 { id := 2, address := 500, type := .uint16 })).trace watchedAnswer

/-- The batch that fails is tried three times, and recorded once. -/
theorem watched_batches_recorded :
    (∃ k : Course watched, BatchRecorded watched 0
      (.single 1 { id := 2, address := 500, type := .uint16 }) watchedBatch.1 none k) ∧
    (∃ plan rest, watchedCycle.1 = ⟨.plan 0, plan⟩ :: rest ∧
      CycleRecorded watched 0 plan watchedCycle.1) ∧
    (records watchedCycle.1).map (fun r => (r.attempts, r.fault, r.frames)) =
      [(1, none, some ⟨[1, 2], [3]⟩),
        (3, some (.connection "closed by peer"), some ⟨[1, 2], [3]⟩)] := by
  obtain ⟨batch, whole⟩ := batches_recorded (α := Binary64) watched 0
  have failed : watchedBatch.2 = none := by decide +kernel
  refine ⟨batch _ _ _ (failed ▸ Activity.performs_trace watchedAnswer _), ?_, by decide +kernel⟩
  exact whole _ _ _ _ (Activity.performs_trace watchedAnswer _)

end

end Poll

end Fieldbus
