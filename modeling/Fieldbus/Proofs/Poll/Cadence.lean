import Fieldbus.Proofs.Activity.Clock
import Fieldbus.Proofs.Poll.Reading
import Fieldbus.Proofs.Poll.Standing
import Fieldbus.Proofs.Poll.Stretching

/-!
# The cadence of a poll loop

A poll loop starts its next cycle one interval after it started this one, or at once if this one took
longer (`Poll.Cadence`).  The interval is the one that the backoff gives after the outcomes reported
so far, so the law of the backoff is the law of the cadence (`Poll.cycles_follow`).

The times are those of a timed trace, in which timers are exact.  A run may be cut anywhere.
-/

namespace Fieldbus

/-- The event starts a cycle over a link. -/
def Event.isStart (link : LinkId) : Event → Bool
  | ⟨.plan l, _⟩ => l = link
  | _ => false

/-- A step that neither starts a cycle nor reports one. -/
def Step.IsMidCycle : Step → Prop
  | .plan _ | .report .. => False
  | _ => True

theorem Step.IsMidCycle.ne_plan {s : Step} (h : s.IsMidCycle) (link : LinkId) : s ≠ .plan link := by
  rintro rfl
  exact h

theorem Step.IsMidCycle.ne_report {s : Step} (h : s.IsMidCycle) (link : LinkId)
    (report : CycleReport) : s ≠ .report link report := by
  rintro rfl
  exact h

theorem Step.IsReading.isMidCycle {s : Step} (h : s.IsReading) : s.IsMidCycle := by
  cases s with
  | plan _ | report _ _ => exact h.elim
  | _ => trivial

namespace Poll

open Activity (Only Clocked ask clocked_pure clocked_playTimed)

variable {α : Type} {c : Channel} {link : LinkId} {t t' : Nanos}
  {history earlier later : List (Nanos × Event)}

/-! ## Starts and reports -/

/-- When the cycles over a link started. -/
def starts (link : LinkId) (history : List (Nanos × Event)) : List Nanos :=
  history.filterMap fun x => if x.2.isStart link then some x.1 else none

/-- The reports of cycles over a link, and when they were made. -/
def reports (link : LinkId) (history : List (Nanos × Event)) : List (Nanos × CycleReport) :=
  history.filterMap fun x => (x.2.reportOf? link).map fun report => (x.1, report)

@[simp] theorem starts_nil : starts link [] = [] := rfl

@[simp] theorem reports_nil : reports link [] = [] := rfl

@[simp] theorem starts_append :
    starts link (earlier ++ later) = starts link earlier ++ starts link later :=
  List.filterMap_append

@[simp] theorem reports_append :
    reports link (earlier ++ later) = reports link earlier ++ reports link later :=
  List.filterMap_append

@[simp] theorem starts_plan {plan : Plan} :
    starts link ((t, ⟨.plan link, plan⟩) :: later) = t :: starts link later := by
  simp [starts, Event.isStart]

@[simp] theorem reports_report {report : CycleReport} :
    reports link ((t, ⟨.report link report, ()⟩) :: later) = (t, report) :: reports link later := by
  simp [reports, Event.reportOf?]

theorem starts_cons {e : Event} (other : e.isStart link = false) :
    starts link ((t, e) :: later) = starts link later := by
  simp [starts, other]

theorem reports_cons {e : Event} (other : e.reportOf? link = none) :
    reports link ((t, e) :: later) = reports link later := by
  simp [reports, other]

/-- Nothing is seen of an activity that asks only for steps of which nothing is seen. -/
theorem filterMap_eq_nil_of_only {β γ : Type} {a b : Activity β} {P : Step → Prop}
    {f : Nanos × Event → Option γ} (run : a.Clocked t history b t') (only : a.Only P)
    (unseen : ∀ x : Nanos × Event, P x.2.step → f x = none) : history.filterMap f = [] :=
  List.filterMap_eq_nil_iff.mpr fun x hx =>
    unseen x (only.of_performs run.performs x.2 (List.mem_map_of_mem hx))

/-- An activity that asks for no plan starts no cycle. -/
theorem starts_eq_nil {β : Type} {a b : Activity β} (run : a.Clocked t history b t')
    (only : a.Only fun s => ∀ l, s ≠ .plan l) (link : LinkId) : starts link history = [] :=
  filterMap_eq_nil_of_only run only fun ⟨_, ⟨step, _⟩⟩ other => by
    cases step with
    | plan l => exact absurd rfl (other l)
    | _ => rfl

theorem reports_eq_nil {β : Type} {a b : Activity β} (run : a.Clocked t history b t')
    (only : a.Only fun s => ∀ l r, s ≠ .report l r) (link : LinkId) : reports link history = [] :=
  filterMap_eq_nil_of_only run only fun ⟨_, ⟨step, _⟩⟩ other => by
    cases step with
    | report l r => exact absurd rfl (other l r)
    | _ => rfl

/-! ## Cycles -/

theorem readPlan_isMidCycle {p : Poller α} {plan : Plan} :
    (readPlan c link p plan).Only Step.IsMidCycle := by
  unfold readPlan
  split
  next => trivial
  next =>
    refine .bind ?_ fun up => ?_
    · refine .ask_bind trivial fun _ => .ask_bind trivial fun up => ?_
      split
      next => exact .ask_bind trivial fun _ => trivial
      next =>
        refine .ask_bind trivial fun _ => .ask_bind trivial fun _ => .ask_bind trivial fun result =>
          .ask_bind trivial fun _ => ?_
        split
        next =>
          split
          next => exact .ask_bind trivial fun _ => trivial
          next => trivial
        next => trivial
        next =>
          exact .ask_bind trivial fun _ => .ask_bind trivial fun _ =>
            .ask_bind trivial fun _ => trivial
    · cases up with
      | true => exact readBatches_isReading.mono fun _ => Step.IsReading.isMidCycle
      | false => trivial

variable [DelayNumber α]

/-- A cycle starts when it is begun, and is reported when it ends. -/
theorem cycle_clocked {p next : Poller α} {report : CycleReport}
    (run : (cycle c link p).Clocked t history (.done (next, report)) t') :
    starts link history = [t] ∧ reports link history = [(t + report.duration, report)] ∧
      t' = t + report.duration ∧ next.backoff = p.backoff.onCycle report.outcome ∧
      report.interval = next.backoff.interval := by
  obtain ⟨plan, _, _, rfl, rfl, planned⟩ := run.of_ask_bind
  obtain ⟨_, _, _, rfl, ⟨rfl, rfl⟩, timed⟩ := planned.of_ask_bind
  obtain ⟨tally, middle, _, between, rfl, reading, read⟩ := timed.of_bind
  obtain ⟨_, _, _, rfl, rfl, published⟩ := read.of_ask_bind
  obtain ⟨_, _, _, rfl, ⟨rfl, rfl⟩, measured⟩ := published.of_ask_bind
  obtain ⟨_, _, _, rfl, rfl, shown⟩ := measured.of_ask_bind
  obtain ⟨_, _, _, rfl, rfl, last⟩ := shown.of_ask_bind
  obtain ⟨rfl, made, rfl⟩ := clocked_pure.mp last
  cases made
  have noStart := starts_eq_nil reading (readPlan_isMidCycle.mono fun _ => Step.IsMidCycle.ne_plan)
    link
  have noReport := reports_eq_nil reading
    (readPlan_isMidCycle.mono fun _ => Step.IsMidCycle.ne_report) link
  have forward := reading.timed.le
  have duration : t + (between - t) = between := Nat.add_sub_cancel' forward
  refine ⟨?_, ?_, duration.symm, rfl, rfl⟩
  · rw [starts_plan, starts_cons rfl, starts_append, noStart]
    rfl
  · rw [reports_cons rfl, reports_cons rfl, reports_append, noReport, List.nil_append,
      reports_cons rfl, reports_cons rfl, reports_cons rfl, reports_report, duration]
    rfl

/-- A cycle that is under way may have started, at its begin. -/
theorem starts_of_cycle {p : Poller α} {a : Activity (Poller α × CycleReport)}
    (run : (cycle c link p).Clocked t history a t') :
    starts link history = [] ∨ starts link history = [t] := by
  rcases run.cases_ask with ⟨rfl, -⟩ | ⟨plan, rest, _, rfl, -, planned⟩
  · exact .inl rfl
  · refine .inr ?_
    rw [starts_plan, starts_eq_nil planned ?_ link]
    refine .ask_bind nofun fun _ => .bind ?_ fun tally => ?_
    · exact readPlan_isMidCycle.mono fun _ => Step.IsMidCycle.ne_plan
    · exact .ask_bind nofun fun _ => .ask_bind nofun fun _ => .ask_bind nofun fun _ =>
        .ask_bind nofun fun _ => trivial

/-! ## The loop -/

/-- A loop that goes on from a time and a backoff starts its cycles at these times, and reports them
so.  The last cycle may be under way. -/
inductive Cadence : Nanos → CycleBackoff α → List Nanos → List (Nanos × CycleReport) → Prop where
  /-- No cycle has started. -/
  | none {t : Nanos} {b : CycleBackoff α} {reports : List (Nanos × CycleReport)} :
    Cadence t b [] reports
  | last {t : Nanos} {b : CycleBackoff α} {reports : List (Nanos × CycleReport)} :
    Cadence t b [t] reports
  /-- A cycle, and those that follow. -/
  | cycle {t : Nanos} {b : CycleBackoff α} {r : CycleReport} {starts : List Nanos}
      {reports : List (Nanos × CycleReport)} :
    r.interval = (b.onCycle r.outcome).interval →
    Cadence (t + max r.duration r.interval) (b.onCycle r.outcome) starts reports →
    Cadence t b (t :: starts) ((t + r.duration, r) :: reports)

theorem loop_cadence {fuel : Nat} {p : Poller α} {left : Activity (Poller α)}
    (run : (loop c link fuel p).Clocked t history left t') :
    Cadence t p.backoff (starts link history) (reports link history) := by
  induction fuel generalizing p t history with
  | zero =>
    obtain ⟨rfl, -, -⟩ := clocked_pure.mp run
    exact .none
  | succ fuel ih =>
    rcases run.cases_ask with ⟨rfl, -⟩ | ⟨cancelled, _, _, rfl, rfl, asked⟩
    · exact .none
    rw [starts_cons rfl, reports_cons rfl]
    cases cancelled with
    | true =>
      obtain ⟨rfl, -, -⟩ := clocked_pure.mp asked
      exact .none
    | false =>
      rcases asked.cases_ask with ⟨rfl, -⟩ | ⟨_, _, _, rfl, ⟨rfl, rfl⟩, timed⟩
      · exact .none
      rw [starts_cons rfl, reports_cons rfl]
      rcases timed.cases_bind with ⟨a, cycling⟩ | ⟨⟨next, r⟩, _, _, _, rfl, cycled, rest⟩
      · rcases starts_of_cycle cycling with unstarted | started
        · rw [unstarted]
          exact .none
        · rw [started]
          exact .last
      obtain ⟨started, reported, rfl, moved, interval⟩ := cycle_clocked cycled
      rw [starts_append, reports_append, started, reported, List.singleton_append,
        List.singleton_append]
      refine .cycle (by rw [interval, moved]) ?_
      rw [← moved]
      rcases rest.cases_ask with ⟨rfl, -⟩ | ⟨interrupted, _, _, rfl, woken, rest⟩
      · exact .none
      rw [starts_cons rfl, reports_cons rfl]
      cases interrupted with
      | true =>
        obtain ⟨rfl, -, -⟩ := clocked_pure.mp rest
        exact .none
      | false =>
        -- The next cycle is due at the later of the end of this one and the end of the interval.
        have due : t + max r.duration r.interval = _ := (Nat.add_max_add_left ..).symm.trans woken
        rw [due]
        exact ih rest

theorem run_cadence {fuel : Nat} {p : Poller α} {left : Activity (Poller α)}
    (run : (run c link fuel p).Clocked t history left t') :
    Cadence t p.backoff (starts link history) (reports link history) := by
  rcases run.cases_bind with ⟨a, looping⟩ | ⟨ended, _, _, _, rfl, looped, rest⟩
  · exact loop_cadence looping
  · have noStart := starts_eq_nil rest (.ask_bind nofun fun _ => trivial) link
    have noReport := reports_eq_nil rest (.ask_bind nofun fun _ => trivial) link
    rw [starts_append, reports_append, noStart, noReport, List.append_nil, List.append_nil]
    exact loop_cadence looped

/-- The first cycle starts at once. -/
theorem Cadence.head {b : CycleBackoff α} {starts : List Nanos}
    {reports : List (Nanos × CycleReport)} {first : Nanos} (h : Cadence t b starts reports)
    (head : starts[0]? = some first) : first = t := by
  cases h with
  | none => cases head
  | last => exact (Option.some.inj head).symm
  | cycle _ _ => exact (Option.some.inj head).symm

/-- A cycle that is followed by another one is reported, and the other one follows when the interval
after the outcomes so far is over, or at once if the cycle took longer. -/
theorem Cadence.follow {b : CycleBackoff α} {starts : List Nanos}
    {reports : List (Nanos × CycleReport)} {i : Nat} {this next : Nanos}
    (h : Cadence t b starts reports) (started : starts[i]? = some this)
    (followed : starts[i + 1]? = some next) :
    ∃ r, reports[i]? = some (this + r.duration, r) ∧ next = this + max r.duration r.interval ∧
      r.interval = (b.afterAll ((reports.take (i + 1)).map (·.2.outcome))).interval := by
  induction h generalizing i with
  | none => cases started
  | last => cases followed
  | @cycle t b r starts reports interval rest ih =>
    cases i with
    | zero =>
      cases Option.some.inj started
      exact ⟨r, rfl, rest.head followed, interval⟩
    | succ i => exact ih started followed

/-- With exact products the interval after any outcomes obeys the law of the backoff.  The cycles of
a poll loop start one behind the other, each one the interval after the outcomes so far behind the
one before, or at the end of that one if it took longer. -/
theorem cycles_follow {normal cap : Nanos} {multiplier : ℚ} (grows : 1 ≤ multiplier)
    (normalSmall : normal < 2 ^ 53) (capSmall : cap < 2 ^ 53) :
    (∀ outcomes, CycleBackoff.Lawful normal multiplier cap outcomes
      ((CycleBackoff.start normal multiplier cap).afterAll outcomes)) ∧
    ∀ {β : Type} [DelayNumber β] (c : Channel) (link : LinkId) (fuel : Nat) (factor : β)
      (t t' : Nanos) (history : List (Nanos × Event)) (left : Activity (Poller β)),
      (run c link fuel (.ofChannel c factor)).Clocked t history left t' →
      ∀ (i : Nat) (this next : Nanos), (starts link history)[i]? = some this →
        (starts link history)[i + 1]? = some next →
        ∃ r, (reports link history)[i]? = some (this + r.duration, r) ∧
          next = this + max r.duration r.interval ∧
          r.interval = ((CycleBackoff.start c.interval factor c.retry.cap).afterAll
            (((reports link history).take (i + 1)).map (·.2.outcome))).interval := by
  have small : max cap normal ≤ maxNanos := by
    have bound : 2 ^ 53 ≤ maxNanos := by decide
    exact (max_lt capSmall normalSmall).le.trans bound
  exact ⟨fun outcomes => CycleBackoff.lawful grows small outcomes,
    fun _ _ _ _ _ _ _ _ run _ _ _ started followed => (run_cadence run).follow started followed⟩

/-! ## Cycles that fail -/

/-- The reads of a flaky device take half a second each, and nothing else takes any time. -/
def slowAnswer : (s : Step) → Nanos → s.Answer × Nanos
  | .now, t => (t, t)
  | .read link b, t => (flakyAnswer (.read link b), t + millis 500)
  | .sleep wake, t => ((), max t wake)
  | .pause _ wake, t => (false, max t wake)
  | s, t => (flakyAnswer s, t)

theorem slowAnswer_lasts (s : Step) (t : Nanos) :
    Event.Lasts t (slowAnswer s t).2 ⟨s, (slowAnswer s t).1⟩ := by
  cases s with
  | now => exact ⟨rfl, rfl⟩
  | read _ _ => exact Nat.le_add_right t _
  | lock _ | connect _ | write _ _ _ | close _ | join _ | send _ | receive | hear _ =>
    exact Nat.le_refl t
  | _ => rfl

/-- Three cycles over a flaky device, with exact products. -/
def slowCycles : List (Nanos × Event) × Poller ℚ × Nanos :=
  (run flaky 0 3 (.ofChannel flaky 2)).playTimed slowAnswer 0

/-- The second cycle fails like the first one, and the third one starts four seconds after it. -/
theorem slow_cycles_follow :
    (1 : ℚ) ≤ 2 ∧ flaky.interval < 2 ^ 53 ∧ flaky.retry.cap < 2 ^ 53 ∧
      (run flaky 0 3 (.ofChannel flaky 2)).Clocked 0 slowCycles.1 (.done slowCycles.2.1)
        slowCycles.2.2 ∧
      (starts 0 slowCycles.1)[1]? = some (seconds 2) ∧
      ∃ r, (reports 0 slowCycles.1)[1]? = some (seconds 2 + r.duration, r) ∧
        seconds 6 = seconds 2 + max r.duration r.interval ∧
        r.interval = stretchedBy (seconds 1) 2 (seconds 60) 2 := by
  have clocked : (run flaky 0 3 (.ofChannel flaky 2)).Clocked 0 slowCycles.1
      (.done slowCycles.2.1) slowCycles.2.2 := clocked_playTimed slowAnswer_lasts _ 0
  have grows : (1 : ℚ) ≤ 2 := by decide
  have normalSmall : flaky.interval < 2 ^ 53 := by decide
  have capSmall : flaky.retry.cap < 2 ^ 53 := by decide
  obtain ⟨law, follow⟩ := cycles_follow grows normalSmall capSmall
  have second : (starts 0 slowCycles.1)[1]? = some (seconds 2) := by decide +kernel
  have third : (starts 0 slowCycles.1)[2]? = some (seconds 6) := by decide +kernel
  have failed : ((reports 0 slowCycles.1).take 2).map (·.2.outcome) = [.allFailed, .allFailed] := by
    decide +kernel
  obtain ⟨r, reported, next, interval⟩ := follow _ _ _ _ _ _ _ _ clocked 1 _ _ second third
  rw [failed, (law _).interval] at interval
  exact ⟨grows, normalSmall, capSmall, clocked, second, r, reported, next, interval⟩

end Poll

end Fieldbus
