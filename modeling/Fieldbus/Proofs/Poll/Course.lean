import Fieldbus.Proofs.Poll.Reading

/-!
# The course of a batch

Reading a batch is a run of tries with a pause behind each that failed, and a record of the last
one.  A `Poll.Course` holds what is known of such a run: which try may be followed by which, when it
ends, and the frames that go with each answer.  The run is the list of events that the course stands
for, and nothing besides (`Poll.readBatch_course`).

A pass over batches is one course after another (`Poll.Passes`, `Poll.readBatches_passes`).
-/

namespace Fieldbus

/-- A step that neither reads a batch nor logs anything. -/
def Step.IsAside : Step → Prop
  | .read .. | .log _ => False
  | _ => True

theorem Event.read?_of_isAside {e : Event} (aside : e.step.IsAside) : e.read? = none := by
  obtain ⟨step, answer⟩ := e
  cases step with
  | read _ _ => exact aside.elim
  | _ => rfl

namespace Poll

/-! ## Tries -/

/-- One try: what the link answered, and the frames that were taken with the answer. -/
structure Try where
  answer : Except Fault (List UInt16)
  frames? : Option Log.Frames

namespace Try

/-- What a try did.  The frames are asked for before the lock is given back. -/
def events (link : LinkId) (b : Batch) (t : Try) : List Event :=
  [⟨.lock link, ()⟩, ⟨.read link b, t.answer⟩] ++
    t.frames?.toList.map (fun frames => ⟨.frames link, frames⟩) ++ [⟨.unlock link, ()⟩]

/-- What went wrong, with the link or with the words. -/
def fault? (b : Batch) (t : Try) : Option Fault :=
  match t.answer >>= b.decode with
  | .ok _ => none
  | .error fault => some fault

/-- The words of a try decode, or it went wrong. -/
theorem outcome_cases (b : Batch) (t : Try) :
    (∃ readings, t.answer >>= b.decode = .ok readings ∧
      t.fault? b = none ∧ b.readings? t.answer = some readings) ∨
    ∃ fault, t.answer >>= b.decode = .error fault ∧
      t.fault? b = some fault ∧ b.readings? t.answer = none := by
  unfold fault? Batch.readings?
  cases t.answer >>= b.decode with
  | ok readings => exact .inl ⟨readings, rfl, rfl, rfl⟩
  | error fault => exact .inr ⟨fault, rfl, rfl, rfl⟩

/-- Of a try nothing is seen but the read. -/
theorem filterMap_events {β : Type} {f : Event → Option β}
    (unseen : ∀ e : Event, e.step.IsAside → f e = none) (link : LinkId) (b : Batch) (t : Try) :
    (t.events link b).filterMap f = (f ⟨.read link b, t.answer⟩).toList := by
  obtain ⟨answer, frames⟩ := t
  have locked : f ⟨.lock link, ()⟩ = none := unseen _ trivial
  have unlocked : f ⟨.unlock link, ()⟩ = none := unseen _ trivial
  have framed (frames : Log.Frames) : f ⟨.frames link, frames⟩ = none := unseen _ trivial
  cases read : f ⟨.read link b, answer⟩ with
  | none => cases frames <;> simp [events, locked, unlocked, framed, read]
  | some seen => cases frames <;> simp [events, locked, unlocked, framed, read]

end Try

/-! ## Courses -/

/-- The pause between two tries, from a time on. -/
def pauseBehind (c : Channel) (link : LinkId) (asked : Nanos) (cancelled : Bool) : List Event :=
  [⟨.now, asked⟩, ⟨.pause link (asked + c.retry.delay), cancelled⟩]

/-- The events of tries that failed, each with the whole pause behind it. -/
def failures (c : Channel) (link : LinkId) (b : Batch) (tries : List (Try × Nanos)) : List Event :=
  tries.flatMap fun t => t.1.events link b ++ pauseBehind c link t.2 false

/-- What becomes of a batch of the channel. -/
structure Course (c : Channel) where
  batch : Batch
  started : Nanos
  /-- The tries that another one followed, each with the time at which the pause behind it began. -/
  earlier : List (Try × Nanos)
  last : Try
  /-- The time at which the pause behind the last try began, if the loop was cancelled in it. -/
  cut? : Option Nanos
  ended : Nanos
  time : Instant
  failed : ∀ t ∈ earlier, batch.readings? t.1.answer = none
  captured : ∀ t ∈ earlier.map Prod.fst ++ [last], t.frames?.isSome ↔ c.log.level = .debug
  bounded : earlier.length + 1 ≤ max 1 c.retry.attempts
  /-- A batch is given up when no try is left, or in a pause. -/
  whole : cut? = none →
    (batch.readings? last.answer).isSome ∨ earlier.length + 1 = max 1 c.retry.attempts
  /-- There is a pause only between a try that failed and one that is left. -/
  early : cut?.isSome →
    batch.readings? last.answer = none ∧ earlier.length + 1 < max 1 c.retry.attempts

namespace Course

variable {c : Channel} (k : Course c)

/-- All tries. -/
def tries : List Try := k.earlier.map Prod.fst ++ [k.last]

/-- What is logged: the outcome and the frames of the last try, and the number of all. -/
def record : Log.Record :=
  { channel := c.id, time := k.time, purpose := .ofBatch k.batch, fault := k.last.fault? k.batch,
    attempts := k.tries.length, latency := k.ended - k.started, frames := k.last.frames? }

/-- The events that the course stands for. -/
def events (link : LinkId) : List Event :=
  [⟨.now, k.started⟩] ++ failures c link k.batch k.earlier ++ k.last.events link k.batch ++
    k.cut?.toList.flatMap (pauseBehind c link · true) ++
    [⟨.now, k.ended⟩, ⟨.clock, k.time⟩, ⟨.log k.record, ()⟩]

/-- The tries alone. -/
def attempt : Attempt where
  batch := k.batch
  earlier := k.earlier.map fun t => t.1.answer
  last := k.last.answer
  failed := by
    intro answer member
    obtain ⟨t, ht, rfl⟩ := List.mem_map.mp member
    exact k.failed t ht

theorem length_tries : k.tries.length = k.earlier.length + 1 := by simp [tries]

theorem answers_attempt : k.attempt.answers = k.tries.map Try.answer := by
  simp [Attempt.answers, attempt, tries, Function.comp_def]

/-- Of a course nothing is seen but its reads and its one record. -/
theorem filterMap_events {β : Type} {f : Event → Option β}
    (unseen : ∀ e : Event, e.step.IsAside → f e = none) (link : LinkId) :
    (k.events link).filterMap f =
      (k.tries.filterMap fun t => f ⟨.read link k.batch, t.answer⟩) ++
        (f ⟨.log k.record, ()⟩).toList := by
  have pause (asked : Nanos) (cancelled : Bool) :
      (pauseBehind c link asked cancelled).filterMap f = [] := by
    have timed : f ⟨.now, asked⟩ = none := unseen _ trivial
    have paused (wake : Nanos) : f ⟨.pause link wake, cancelled⟩ = none := unseen _ trivial
    simp [pauseBehind, timed, paused]
  have before : (failures c link k.batch k.earlier).filterMap f =
      (k.earlier.map Prod.fst).filterMap fun t => f ⟨.read link k.batch, t.answer⟩ := by
    unfold failures
    generalize k.earlier = earlier
    induction earlier with
    | nil => rfl
    | cons t rest ih =>
      rw [List.flatMap_cons, List.filterMap_append, List.filterMap_append, ih, pause,
        Try.filterMap_events unseen, List.append_nil]
      cases read : f ⟨.read link k.batch, t.1.answer⟩ <;> simp [read]
  have behind : (k.cut?.toList.flatMap (pauseBehind c link · true)).filterMap f = [] := by
    cases k.cut? with
    | none => rfl
    | some asked => simpa using pause asked true
  have opening : [⟨.now, k.started⟩].filterMap f = [] := by
    simp [unseen ⟨.now, k.started⟩ trivial]
  have closing : [⟨.now, k.ended⟩, ⟨.clock, k.time⟩, ⟨.log k.record, ()⟩].filterMap f =
      (f ⟨.log k.record, ()⟩).toList := by
    have timed : f ⟨.now, k.ended⟩ = none := unseen _ trivial
    have dated : f ⟨.clock, k.time⟩ = none := unseen _ trivial
    cases logged : f ⟨.log k.record, ()⟩ <;> simp [timed, dated, logged]
  have last : (f ⟨.read link k.batch, k.last.answer⟩).toList =
      [k.last].filterMap fun t => f ⟨.read link k.batch, t.answer⟩ := by
    cases read : f ⟨.read link k.batch, k.last.answer⟩ <;> simp [read]
  unfold events
  rw [List.filterMap_append, List.filterMap_append, List.filterMap_append, List.filterMap_append,
    opening, before, Try.filterMap_events unseen, behind, closing, last, tries,
    List.filterMap_append, List.append_nil, List.nil_append]

theorem reads_events (link : LinkId) :
    (k.events link).filterMap Event.read? = k.tries.map (link, k.batch, ·.answer) := by
  rw [filterMap_events k (fun _ => Event.read?_of_isAside)]
  simp [Event.read?, List.filterMap_eq_map']

end Course

section

variable {c : Channel} {link : LinkId} {b : Batch} {events : List Event}

open Activity (performs_pure ask)

/-- A try asks for the frames if the channel logs them. -/
theorem readOnce_try {tried : Except Fault (List Reading) × Option Log.Frames}
    (run : (readOnce c link b).Performs events (.done tried)) :
    ∃ t : Try, events = t.events link b ∧ tried = (t.answer >>= b.decode, t.frames?) ∧
      (t.frames?.isSome ↔ c.log.level = .debug) := by
  obtain ⟨_, _, rfl, locked⟩ := run.of_ask_bind
  obtain ⟨answer, _, rfl, answered⟩ := locked.of_ask_bind
  split at answered
  next debug =>
    obtain ⟨frames, _, _, rfl, taken, framed⟩ := answered.of_bind
    obtain ⟨_, _, rfl, last⟩ := framed.of_ask_bind
    obtain ⟨rfl, rfl⟩ := performs_pure.mp last
    cases taken with
    | @cons _ _ given _ _ done =>
      cases done
      exact ⟨⟨answer, some given⟩, rfl, rfl, by simp [debug]⟩
  next other =>
    obtain ⟨frames, _, _, rfl, taken, framed⟩ := answered.of_bind
    obtain ⟨_, _, rfl, last⟩ := framed.of_ask_bind
    obtain ⟨rfl, rfl⟩ := performs_pure.mp last
    cases taken
    exact ⟨⟨answer, none⟩, rfl, rfl, by simp [other]⟩

/-- A batch that ends with a try is logged with the outcome of that try. -/
theorem exists_course {started : Nanos} {fault : Option Fault}
    {given result : Option (List Reading)} {t : Try} (soFar : List (Try × Nanos))
    (cut? : Option Nanos)
    (failed : ∀ t ∈ soFar, b.readings? t.1.answer = none)
    (captured : ∀ t ∈ soFar.map Prod.fst, t.frames?.isSome ↔ c.log.level = .debug)
    (taken : t.frames?.isSome ↔ c.log.level = .debug)
    (outcome : t.fault? b = fault ∧ b.readings? t.answer = given)
    (bounded : soFar.length + 1 ≤ max 1 c.retry.attempts)
    (whole : cut? = none → given.isSome ∨ soFar.length + 1 = max 1 c.retry.attempts)
    (early : cut?.isSome → given = none ∧ soFar.length + 1 < max 1 c.retry.attempts)
    (run : (do
      logRead c b started (soFar.length + 1) fault t.frames?
      return given : Activity _).Performs events (.done result)) :
    ∃ k : Course c, k.batch = b ∧ result = b.readings? k.last.answer ∧
      k.events link = [⟨.now, started⟩] ++ failures c link b soFar ++
        (t.events link b ++ (cut?.toList.flatMap (pauseBehind c link · true) ++ events)) := by
  obtain ⟨rfl, rfl⟩ := outcome
  obtain ⟨_, _, _, rfl, logged, last⟩ := run.of_bind
  obtain ⟨rfl, rfl⟩ := performs_pure.mp last
  obtain ⟨ended, _, rfl, timed⟩ := logged.of_ask_bind
  obtain ⟨time, _, rfl, dated⟩ := timed.of_ask_bind
  cases dated with
  | cons done =>
    cases done
    refine ⟨{ batch := b, started, earlier := soFar, last := t, cut?, ended, time, failed
              captured := ?_, bounded, whole, early }, rfl, rfl, ?_⟩
    · intro t' member
      rcases List.mem_append.mp member with before | here
      · exact captured t' before
      · rw [List.mem_singleton.mp here]
        exact taken
    · simp [Course.events, Course.record, Course.tries]

/-- The tries so far are those that failed, and the next one goes behind them. -/
theorem tryBatch_course {started : Nanos} {left : Nat} {result : Option (List Reading)}
    (soFar : List (Try × Nanos)) (failed : ∀ t ∈ soFar, b.readings? t.1.answer = none)
    (captured : ∀ t ∈ soFar.map Prod.fst, t.frames?.isSome ↔ c.log.level = .debug)
    (total : soFar.length + left + 1 = max 1 c.retry.attempts)
    (run : (tryBatch c link b started soFar.length left).Performs events (.done result)) :
    ∃ k : Course c, k.batch = b ∧ result = b.readings? k.last.answer ∧
      k.events link = [⟨.now, started⟩] ++ failures c link b soFar ++ events := by
  induction left generalizing soFar events with
  | zero =>
    obtain ⟨_, _, _, rfl, first, rest⟩ := run.of_bind
    obtain ⟨t, rfl, rfl, taken⟩ := readOnce_try first
    have bounded : soFar.length + 1 ≤ max 1 c.retry.attempts := Nat.le_of_eq total
    rcases t.outcome_cases b with ⟨readings, made, outcome⟩ | ⟨fault, made, outcome⟩
    · simp only [made] at rest
      exact exists_course soFar none failed captured taken outcome bounded
        (fun _ => .inl rfl) nofun rest
    · simp only [made] at rest
      exact exists_course soFar none failed captured taken outcome bounded
        (fun _ => .inr total) nofun rest
  | succ left ih =>
    obtain ⟨_, _, _, rfl, first, rest⟩ := run.of_bind
    obtain ⟨t, rfl, rfl, taken⟩ := readOnce_try first
    have within : soFar.length + 1 < max 1 c.retry.attempts := by omega
    rcases t.outcome_cases b with ⟨readings, made, outcome⟩ | ⟨fault, made, outcome⟩
    · simp only [made] at rest
      exact exists_course soFar none failed captured taken outcome (Nat.le_of_lt within)
        (fun _ => .inl rfl) nofun rest
    · simp only [made] at rest
      obtain ⟨asked, _, rfl, timed⟩ := rest.of_ask_bind
      obtain ⟨cancelled, later, rfl, paused⟩ := timed.of_ask_bind
      cases cancelled with
      | true =>
        exact exists_course soFar (some asked) failed captured taken outcome
          (Nat.le_of_lt within) nofun (fun _ => ⟨rfl, within⟩) paused
      | false =>
        -- The failed try and its pause are the last of those so far.
        have next : (tryBatch c link b started (soFar ++ [(t, asked)]).length left).Performs later
            (.done result) := by
          rw [List.length_append]
          exact paused
        have tried : ∀ one ∈ soFar ++ [(t, asked)], b.readings? one.1.answer = none :=
          List.forall_mem_append.mpr ⟨failed, by simpa using outcome.2⟩
        have framed : ∀ one ∈ (soFar ++ [(t, asked)]).map Prod.fst,
            one.frames?.isSome ↔ c.log.level = .debug := by
          rw [List.map_append]
          exact List.forall_mem_append.mpr ⟨captured, by simpa using taken⟩
        obtain ⟨k, same, given, whole⟩ := ih _ tried framed (by simp; omega) next
        refine ⟨k, same, given, whole.trans ?_⟩
        simp [failures, pauseBehind]

/-- Reading a batch follows a course. -/
theorem readBatch_course {result : Option (List Reading)}
    (run : (readBatch c link b).Performs events (.done result)) :
    ∃ k : Course c, k.batch = b ∧ result = b.readings? k.last.answer ∧ events = k.events link := by
  obtain ⟨started, _, rfl, timed⟩ := run.of_ask_bind
  obtain ⟨k, same, given, whole⟩ := tryBatch_course [] nofun nofun (by simp; omega) timed
  exact ⟨k, same, given, whole.symm⟩

/-! ## Passes -/

/-- Courses one behind the other, with steps between them that neither read nor log. -/
inductive Passes (c : Channel) (link : LinkId) : List Event → List (Course c) → Prop
  | nil : Passes c link [] []
  | aside {e : Event} {events : List Event} {courses : List (Course c)} :
    e.step.IsAside → Passes c link events courses → Passes c link (e :: events) courses
  | course {events : List Event} {courses : List (Course c)} (k : Course c) :
    Passes c link events courses → Passes c link (k.events link ++ events) (k :: courses)

/-- Steps aside that stand before a pass. -/
theorem Passes.behind {courses : List (Course c)} (h : Passes c link events courses)
    {before : List Event} (aside : ∀ e ∈ before, e.step.IsAside) :
    Passes c link (before ++ events) courses := by
  induction before with
  | nil => exact h
  | cons e rest ih =>
    exact .aside (aside e List.mem_cons_self) (ih fun e he => aside e (List.mem_cons_of_mem _ he))

/-- Steps aside that stand behind a pass. -/
theorem Passes.before {courses : List (Course c)} (h : Passes c link events courses)
    {behind : List Event} (aside : ∀ e ∈ behind, e.step.IsAside) :
    Passes c link (events ++ behind) courses := by
  induction h with
  | nil => simpa using Passes.nil.behind aside
  | aside own _ ih => exact .aside own ih
  | course k _ ih =>
    rw [List.append_assoc]
    exact .course k ih

/-- What is seen of a pass is seen of its courses, if it is not seen of the steps aside. -/
theorem Passes.filterMap {β : Type} {f : Event → Option β}
    (unseen : ∀ e : Event, e.step.IsAside → f e = none) {courses : List (Course c)}
    (h : Passes c link events courses) :
    events.filterMap f = courses.flatMap fun k => (k.events link).filterMap f := by
  induction h with
  | nil => rfl
  | aside own _ ih => rw [List.filterMap_cons_none (unseen _ own), ih]
  | course k _ ih => rw [List.filterMap_append, ih, List.flatMap_cons]

/-- The batches read are the first ones, and all of them unless the loop is cancelled. -/
theorem readBatches_passes {first : Bool} {t made : Tally} {batches : List Batch}
    (run : (readBatches c link first t batches).Performs events (.done made)) :
    ∃ courses : List (Course c), courses.map Course.batch <+: batches ∧
      Passes c link events courses ∧ made = t.addAll (courses.map Course.attempt) ∧
      (courses.length = batches.length ∨ ⟨.isCancelled link, true⟩ ∈ events) := by
  induction batches generalizing first t events with
  | nil =>
    obtain ⟨rfl, rfl⟩ := performs_pure.mp run
    exact ⟨[], by simp, .nil, rfl, .inl rfl⟩
  | cons b rest ih =>
    obtain ⟨cancelled, _, rfl, asked⟩ := run.of_ask_bind
    cases cancelled with
    | true =>
      obtain ⟨rfl, rfl⟩ := performs_pure.mp asked
      exact ⟨[], by simp, .aside trivial .nil, rfl, .inr (by simp)⟩
    | false =>
      have further : ∀ events, (readBatch c link b >>= fun readings =>
          readBatches c link false (t.add readings) rest).Performs events (.done made) →
          ∃ courses : List (Course c), courses.map Course.batch <+: b :: rest ∧
            Passes c link events courses ∧ made = t.addAll (courses.map Course.attempt) ∧
            (courses.length = (b :: rest).length ∨ ⟨.isCancelled link, true⟩ ∈ events) := by
        intro events run
        obtain ⟨readings, _, _, rfl, tried, others⟩ := run.of_bind
        obtain ⟨k, rfl, rfl, rfl⟩ := readBatch_course tried
        obtain ⟨courses, order, passes, tally, complete⟩ := ih others
        refine ⟨k :: courses, List.cons_prefix_cons.mpr ⟨rfl, order⟩, .course k passes, tally,
          complete.imp (congrArg (· + 1)) fun member => List.mem_append_right _ member⟩
      simp only [Bool.false_eq_true, if_false] at asked
      split at asked
      next =>
        obtain ⟨now, _, rfl, timed⟩ := asked.of_ask_bind
        obtain ⟨_, _, rfl, slept⟩ := timed.of_ask_bind
        obtain ⟨courses, order, passes, tally, complete⟩ := further _ slept
        refine ⟨courses, order, .aside trivial (.aside trivial (.aside trivial passes)), tally,
          complete.imp_right fun member => ?_⟩
        simp [member]
      next =>
        obtain ⟨courses, order, passes, tally, complete⟩ := further _ asked
        refine ⟨courses, order, .aside trivial passes, tally, complete.imp_right fun member => ?_⟩
        simp [member]

/-- The reads of a pass are those of its attempts. -/
theorem readBatches_reads {first : Bool} {t made : Tally} {batches : List Batch}
    (run : (readBatches c link first t batches).Performs events (.done made)) :
    ∃ attempts : List Attempt, attempts.map Attempt.batch <+: batches ∧
      events.filterMap Event.read? = attempts.flatMap (·.reads link) ∧
      made = t.addAll attempts ∧
      (attempts.length = batches.length ∨ ⟨.isCancelled link, true⟩ ∈ events) := by
  obtain ⟨courses, order, passes, tally, complete⟩ := readBatches_passes run
  refine ⟨courses.map Course.attempt, ?_, ?_, tally, by simpa using complete⟩
  · simpa [Course.attempt, Function.comp_def] using order
  · rw [passes.filterMap fun _ => Event.read?_of_isAside, List.flatMap_map]
    congr 1
    funext k
    rw [Course.reads_events, Attempt.reads, Course.answers_attempt]
    simp [Course.attempt, Function.comp_def]

end

end Poll

end Fieldbus
