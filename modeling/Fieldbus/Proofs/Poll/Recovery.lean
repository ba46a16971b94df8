import Fieldbus.Proofs.Poll.Account
import Fieldbus.Proofs.Poll.Standing

/-!
# What ends a backoff

A cycle restores the normal interval if no batch of it has failed.  That is so if every batch of
its plan was read and decoded (`Poll.ReadAll`), but also if the loop was found cancelled before a
batch and those before it succeeded (`Poll.CutShort`).  `Poll.recovers_iff` says that there is no
third way: neither a batch that fails, in whichever of its tries the loop is cancelled, nor a link
that cannot be made ends a backoff.

A cycle that is cut short before its first batch has read nothing at all, and it ends a backoff all
the same (`Poll.cancelled_recovers`).
-/

namespace Fieldbus

/-! ## Outcomes -/

theorem CycleReport.outcome_eq_allSucceeded_iff (report : CycleReport) :
    report.outcome = .allSucceeded ↔ report.failed = 0 := by
  unfold CycleReport.outcome CycleOutcome.ofCounts
  split
  next none => simp [none]
  next some =>
    split
    next => simp [some]
    next => simp [some]

/-- A machine that backs off is reset by a fully successful cycle only. -/
theorem CycleBackoff.failedCycles_onCycle_eq_zero_iff {α : Type} {b : CycleBackoff α}
    (backing : b.isBackingOff = true) (outcome : CycleOutcome) :
    (b.onCycle outcome).failedCycles = 0 ↔ outcome = .allSucceeded := by
  have failures : b.failedCycles ≠ 0 := by
    have positive : 0 < b.failedCycles := by simpa [isBackingOff] using backing
    omega
  cases outcome with
  | allSucceeded => simp [onCycle]
  | partly => simp [onCycle, failures]
  | allFailed => simp [onCycle, maxFailures]

namespace Poll

open Activity (Only ask performs_pure)

variable {α : Type} {c : Channel} {link : LinkId} {plan : Plan} {events : List Event}
  {attempts : List Attempt} {p next : Poller α} {report : CycleReport}

/-! ## Cycles without a failure -/

/-- Every batch of the plan was read and decoded. -/
structure ReadAll (plan : Plan) (attempts : List Attempt) : Prop where
  batches : attempts.map Attempt.batch = plan.batches
  succeeded : ∀ a ∈ attempts, a.succeeded = true

/-- The loop was found cancelled before a batch of the plan, and no batch had failed by then. -/
structure CutShort (link : LinkId) (plan : Plan) (events : List Event)
    (attempts : List Attempt) : Prop where
  connected : ¬ Unconnected link events
  cancelled : ⟨.isCancelled link, true⟩ ∈ events
  shorter : attempts.length < plan.size
  succeeded : ∀ a ∈ attempts, a.succeeded = true

/-- No batch counts as failed if every batch was read, or if the cycle was cut short. -/
theorem Accounted.failed_eq_zero_iff {succeeded failed points : Nat}
    (account : Accounted link plan events attempts succeeded failed points)
    (filled : plan.isEmpty = false) :
    failed = 0 ↔ ReadAll plan attempts ∨ CutShort link plan events attempts := by
  have positive : 0 < plan.size := by
    rw [Plan.isEmpty, List.isEmpty_eq_false_iff] at filled
    exact List.length_pos_iff.mpr filled
  by_cases unmade : Unconnected link events
  · -- Without a link no batch is read, and all of them count as failed.
    obtain ⟨rfl, -, failed⟩ := account.unconnected unmade
    constructor
    · intro none
      omega
    · rintro (all | cut)
      · rw [Plan.size, ← all.batches] at positive
        exact absurd positive (Nat.lt_irrefl 0)
      · exact absurd unmade cut.connected
  · have clean : failed = 0 ↔ ∀ a ∈ attempts, a.succeeded = true := by
      have counted := account.connected unmade
      have succeeded := account.succeeded
      rw [← List.countP_eq_length]
      omega
    constructor
    · intro none
      have succeeded := clean.mp none
      rcases account.complete with whole | cancelled | unmade'
      · refine .inl ⟨account.order.eq_of_length ?_, succeeded⟩
        rw [List.length_map, whole, Plan.size]
      · rcases Nat.lt_or_ge attempts.length plan.size with shorter | enough
        · exact .inr ⟨unmade, cancelled, shorter, succeeded⟩
        · refine .inl ⟨account.order.eq_of_length_le ?_, succeeded⟩
          rw [List.length_map]
          exact enough
      · exact absurd unmade' unmade
    · rintro (all | cut)
      · exact clean.mpr all.succeeded
      · exact clean.mpr cut.succeeded

/-- All batches have succeeded if as many have as the plan has batches. -/
theorem Accounted.succeeded_eq_size_iff {succeeded failed points : Nat}
    (account : Accounted link plan events attempts succeeded failed points) :
    succeeded = plan.size ↔ ReadAll plan attempts := by
  have some := account.succeeded
  have within : attempts.countP Attempt.succeeded ≤ attempts.length := List.countP_le_length
  have first := account.order.length_le
  rw [List.length_map] at first
  constructor
  · intro all
    rw [Plan.size] at all
    refine ⟨account.order.eq_of_length_le ?_, List.countP_eq_length.mp ?_⟩
    · rw [List.length_map]
      omega
    · omega
  · intro all
    rw [some, List.countP_eq_length.mpr all.succeeded, Plan.size, ← all.batches, List.length_map]

/-! ## What a cycle shows -/

/-- A loop that backs off does not show that it polls before the end of its cycle. -/
theorem readPlan_withholds (backing : p.backoff.isBackingOff = true) :
    (readPlan c link p plan).Only (· ≠ .setState link .polling) := by
  unfold readPlan
  split
  next => trivial
  next =>
    refine .bind ?_ fun up => ?_
    · refine .ask_bind (by simp) fun _ => .ask_bind (by simp) fun up => ?_
      split
      next => exact .ask_bind (by simp) fun _ => trivial
      next =>
        refine .ask_bind (by simp) fun _ => .ask_bind (by simp) fun _ =>
          .ask_bind (by simp) fun result => .ask_bind (by simp) fun _ => ?_
        split
        next => simp [backing, Only, pure]
        next => trivial
        next =>
          exact .ask_bind (by simp) fun _ => .ask_bind (by simp) fun _ =>
            .ask_bind (by simp) fun _ => trivial
    · cases up with
      | true =>
        refine readBatches_isReading.mono fun s reading same => ?_
        rw [same] at reading
        exact reading
      | false => trivial

/-- The report of a cycle moves the machine on, and the cycle shows that it polls if the machine
does not back off then. -/
theorem cycle_backoff [DelayNumber α]
    (run : (cycle c link p).Performs events (.done (next, report))) :
    next.backoff = p.backoff.onCycle report.outcome ∧
      (p.backoff.isBackingOff = true →
        (⟨.setState link .polling, ()⟩ ∈ events ↔ next.backoff.failedCycles = 0)) := by
  obtain ⟨plan, _, rfl, planned⟩ := run.of_ask_bind
  obtain ⟨started, _, rfl, timed⟩ := planned.of_ask_bind
  obtain ⟨tally, middle, _, rfl, passed, rest⟩ := timed.of_bind
  obtain ⟨_, _, rfl, published⟩ := rest.of_ask_bind
  obtain ⟨ended, _, rfl, measured⟩ := published.of_ask_bind
  obtain ⟨_, _, rfl, shown⟩ := measured.of_ask_bind
  obtain ⟨_, _, rfl, last⟩ := shown.of_ask_bind
  obtain ⟨rfl, made⟩ := performs_pure.mp last
  cases made
  refine ⟨rfl, fun backing => ?_⟩
  have withheld : ⟨.setState link .polling, ()⟩ ∉ middle := fun early =>
    (readPlan_withholds backing).of_performs passed _ early rfl
  simp [withheld, CycleBackoff.isBackingOff]

/-- A cycle over a plan with batches counts as fully successful if it has read all of them, or if
it was cut short before one of them failed.  Nothing else ends a backoff. -/
theorem recovers_iff [DelayNumber α]
    (run : (cycle c link p).Performs events (.done (next, report))) :
    ∃ plan rest attempts, events = ⟨.plan link, plan⟩ :: rest ∧
      Accounted link plan events attempts report.succeeded report.failed report.points ∧
      (report.succeeded = plan.size ↔ ReadAll plan attempts) ∧
      (plan.isEmpty = false →
        (report.outcome = .allSucceeded ↔
          ReadAll plan attempts ∨ CutShort link plan events attempts) ∧
        (p.backoff.isBackingOff = true →
          (next.backoff.failedCycles = 0 ↔
            ReadAll plan attempts ∨ CutShort link plan events attempts) ∧
          (⟨.setState link .polling, ()⟩ ∈ events ↔
            ReadAll plan attempts ∨ CutShort link plan events attempts))) := by
  obtain ⟨plan, before, after, attempts, whole, -, account⟩ := cycle_accounted run
  obtain ⟨moved, shown⟩ := cycle_backoff run
  refine ⟨plan, _, attempts, whole, account, account.succeeded_eq_size_iff, fun filled => ?_⟩
  have outcome : report.outcome = .allSucceeded ↔
      ReadAll plan attempts ∨ CutShort link plan events attempts :=
    report.outcome_eq_allSucceeded_iff.trans (account.failed_eq_zero_iff filled)
  refine ⟨outcome, fun backing => ?_⟩
  have reset : next.backoff.failedCycles = 0 ↔
      ReadAll plan attempts ∨ CutShort link plan events attempts := by
    rw [moved, CycleBackoff.failedCycles_onCycle_eq_zero_iff backing, outcome]
  exact ⟨reset, (shown backing).trans reset⟩

/-! ## A backoff that is ended -/

/-- The poll loop after a cycle whose only batch failed. -/
def flakyFailed : Poller Binary64 :=
  ((cycle flaky 0 (.ofChannel flaky (.ofNat 2))).trace flakyAnswer).2.1

/-- The device answers again, with zeros. -/
def recoveredAnswer : (s : Step) → s.Answer
  | .read _ b => .ok (List.replicate b.quantity.toNat 0)
  | s => flakyAnswer s

/-- The batch is read at last, and the loop polls again. -/
theorem flaky_recovers_iff :
    ∃ next report rest attempts,
      (cycle flaky 0 flakyFailed).Performs (⟨.plan 0, flakyAnswer (.plan 0)⟩ :: rest)
        (.done (next, report)) ∧
      flakyFailed.backoff.failedCycles = 1 ∧ next.backoff.failedCycles = 0 ∧
      report.succeeded = 1 ∧ ReadAll (flakyAnswer (.plan 0)) attempts ∧
      ⟨.setState 0 .polling, ()⟩ ∈ rest := by
  have run := Activity.performs_trace recoveredAnswer (cycle flaky 0 flakyFailed)
  obtain ⟨plan, rest, attempts, whole, account, read, ended⟩ := recovers_iff run
  have asked : plan = flakyAnswer (.plan 0) := by
    cases whole
    rfl
  subst asked
  have all : ReadAll (flakyAnswer (.plan 0)) attempts := read.mp (by decide +kernel)
  obtain ⟨-, reset⟩ := ended (by decide +kernel)
  obtain ⟨reset, shown⟩ := reset (by decide +kernel)
  have polling := shown.mpr (.inl all)
  rw [whole] at run polling
  refine ⟨_, _, rest, attempts, run, by decide +kernel, reset.mpr (.inl all), by decide +kernel,
    all, ?_⟩
  simpa using polling

/-- The loop is cancelled. -/
def cancelledAnswer : (s : Step) → s.Answer
  | .isCancelled _ => true
  | s => flakyAnswer s

/-- A cycle that is cancelled before it reads anything counts as fully successful, and ends the
backoff. -/
theorem cancelled_recovers :
    ∃ next report rest,
      (cycle flaky 0 flakyFailed).Performs (⟨.plan 0, flakyAnswer (.plan 0)⟩ :: rest)
        (.done (next, report)) ∧
      (flakyAnswer (.plan 0)).size = 1 ∧ rest.filterMap Event.read? = [] ∧
      report.succeeded = 0 ∧ report.outcome = .allSucceeded ∧
      flakyFailed.backoff.failedCycles = 1 ∧ next.backoff.failedCycles = 0 ∧
      ⟨.setState 0 .polling, ()⟩ ∈ rest := by
  have run := Activity.performs_trace cancelledAnswer (cycle flaky 0 flakyFailed)
  refine ⟨_, _, _, run, by decide +kernel, rfl, by decide +kernel, by decide +kernel,
    by decide +kernel, by decide +kernel, ?_⟩
  exact List.mem_of_getElem? (i := 10) rfl

end Poll

end Fieldbus
