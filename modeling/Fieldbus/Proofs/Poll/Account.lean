import Mathlib.Data.List.Nodup
import Fieldbus.Proofs.Activity.Interleaving
import Fieldbus.Proofs.Plan.Acquisition
import Fieldbus.Proofs.Poll.Course
import Fieldbus.Proofs.Poll.Publication

/-!
# The account of a poll cycle

A cycle asks for the plan once, at its start, and reads the first batches of that plan.  Its
report counts these batches (`Poll.Accounted`).  It publishes once, at its end, the readings of
the batches that succeeded, so these points are renewed at one time and every other point keeps
its sample (`Poll.Published`).

`Poll.cycle_accounts` says both of a cycle in the company of other activities, which may swap the
plan or cancel the loop at any time.
-/

namespace Fieldbus

/-- Where the value of a point of the channel is kept. -/
def Channel.key (c : Channel) (p : Point) : StoreKey := ⟨c.id, p.category, p.id⟩

/-! ## Plans of distinct points -/

/-- No two points of the plan have one id. -/
def Plan.Distinct (plan : Plan) : Prop :=
  ((plan.batches.flatMap Batch.points).map Point.id).Nodup

theorem Channel.distinct_of_plan {c : Channel} {plan : Plan} (planned : c.plan = .ok plan)
    (distinct : (c.points.map Point.id).Nodup) : plan.Distinct :=
  ((c.points_of_plan planned).1.map Point.id).nodup_iff.mpr distinct

/-- A point of one batch is in no other batch. -/
theorem Plan.Distinct.index_eq {plan : Plan} (h : plan.Distinct) {i j : Nat} {b d : Batch}
    (hb : plan.batches[i]? = some b) (hd : plan.batches[j]? = some d) {p q : Point}
    (hp : p ∈ b.points) (hq : q ∈ d.points) (same : p.id = q.id) : i = j := by
  rw [Plan.Distinct, List.map_flatMap, List.nodup_flatMap] at h
  have apart := List.pairwise_iff_getElem.mp h.2
  obtain ⟨hi, rfl⟩ := List.getElem?_eq_some_iff.mp hb
  obtain ⟨hj, rfl⟩ := List.getElem?_eq_some_iff.mp hd
  have first : p.id ∈ plan.batches[i].points.map Point.id := List.mem_map_of_mem hp
  have second : p.id ∈ plan.batches[j].points.map Point.id := same ▸ List.mem_map_of_mem hq
  rcases Nat.lt_trichotomy i j with below | here | above
  · exact (apart i j hi hj below first second).elim
  · exact here
  · exact (apart j i hj hi above second first).elim

namespace Poll

open Ensemble (Run eventsOf mem_eventsOf split_of_eventsOf touches)

/-! ## The account -/

/-- The link could not be made. -/
def Unconnected (link : LinkId) (events : List Event) : Prop :=
  ∃ fault, ⟨.connect link, .error fault⟩ ∈ events

/-- What is logged of a link that could not be made, unless the link held the attempt back. -/
def connectRecords (c : Channel) (time : Instant) (latency : Nanos) : Fault → List Log.Record
  | .backoff _ => []
  | fault => [{ channel := c.id, time, purpose := .connect, fault := some fault, latency }]

theorem connectRecords_of_not_backoff {c : Channel} {time : Instant} {latency : Nanos}
    {fault : Fault} (other : ∀ retry, fault = .backoff retry → False) :
    connectRecords c time latency fault =
      [{ channel := c.id, time, purpose := .connect, fault := some fault, latency }] := by
  cases fault with
  | backoff retry => exact (other retry rfl).elim
  | _ => rfl

/-- The batches that a cycle read, and its counts of them. -/
structure Accounted (link : LinkId) (plan : Plan) (events : List Event) (attempts : List Attempt)
    (succeeded failed points : Nat) : Prop where
  /-- The first batches of the plan are read, in its order. -/
  order : attempts.map Attempt.batch <+: plan.batches
  /-- Nothing else is read. -/
  reads : events.filterMap Event.read? = attempts.flatMap (·.reads link)
  /-- All batches are read, unless the loop is cancelled or the link cannot be made. -/
  complete : attempts.length = plan.size ∨ ⟨.isCancelled link, true⟩ ∈ events ∨
    Unconnected link events
  unconnected : Unconnected link events → attempts = [] ∧ succeeded = 0 ∧ failed = plan.size
  connected : ¬ Unconnected link events → succeeded + failed = attempts.length
  succeeded : succeeded = attempts.countP Attempt.succeeded
  points : points = ((attempts.filter Attempt.succeeded).map fun a => a.batch.points.length).sum

section

variable {c : Channel} {link : LinkId} {plan : Plan} {events : List Event}
  {attempts : List Attempt}

open Activity (Only performs_pure ask)

theorem length_flatMap_readings (attempts : List Attempt) :
    (attempts.flatMap Attempt.readings).length =
      ((attempts.filter Attempt.succeeded).map fun a => a.batch.points.length).sum := by
  induction attempts with
  | nil => rfl
  | cons a rest ih =>
    rw [List.flatMap_cons, List.length_append, ih]
    cases done : a.succeeded with
    | true =>
      have own : a.readings.length = a.batch.points.length := by
        simpa using congrArg List.length (Attempt.ids_readings done)
      simp [done, own]
    | false => simp [done, Attempt.readings_of_not_succeeded done]

/-- Events around those of the account that neither read nor make a link. -/
theorem Accounted.within {succeeded failed points : Nat}
    (h : Accounted link plan events attempts succeeded failed points) {before after : List Event}
    (silent : ∀ e ∈ before ++ after, e.read? = none ∧ ∀ fault, e ≠ ⟨.connect link, .error fault⟩) :
    Accounted link plan (before ++ events ++ after) attempts succeeded failed points := by
  have same : Unconnected link (before ++ events ++ after) ↔ Unconnected link events := by
    constructor
    · rintro ⟨fault, member⟩
      simp only [List.mem_append] at member
      rcases member with (first | middle) | last
      · exact absurd rfl ((silent _ (List.mem_append_left _ first)).2 fault)
      · exact ⟨fault, middle⟩
      · exact absurd rfl ((silent _ (List.mem_append_right _ last)).2 fault)
    · rintro ⟨fault, member⟩
      exact ⟨fault, by simp [member]⟩
  have none (outer : List Event) (inside : ∀ e ∈ outer, e ∈ before ++ after) :
      outer.filterMap Event.read? = [] :=
    List.filterMap_eq_nil_iff.mpr fun e he => (silent e (inside e he)).1
  refine ⟨h.order, ?_, ?_, ?_, ?_, h.succeeded, h.points⟩
  · rw [List.filterMap_append, List.filterMap_append, h.reads,
      none before fun _ => List.mem_append_left _, none after fun _ => List.mem_append_right _]
    simp
  · rw [same]
    exact h.complete.imp_right (Or.imp_left fun member => by simp [member])
  · rw [same]
    exact h.unconnected
  · rw [same]
    exact h.connected

/-- The link is up and nothing is logged, or it could not be made, and unless it was held back just
that is logged. -/
theorem ensureConnected_cases {α : Type} {p : Poller α} {up : Bool}
    (run : (ensureConnected c link p).Performs events (.done up)) :
    (up = true ∧ ∀ e ∈ events, e.step.IsAside ∧ ∀ fault, e ≠ ⟨.connect link, .error fault⟩) ∨
    (up = false ∧ ∃ fault before time latency,
      events = before ++ (connectRecords c time latency fault).map (⟨.log ·, ()⟩) ∧
      (∀ e ∈ before, e.step.IsAside) ∧ ⟨.connect link, .error fault⟩ ∈ before) := by
  obtain ⟨_, _, rfl, locked⟩ := run.of_ask_bind
  obtain ⟨connected, _, rfl, asked⟩ := locked.of_ask_bind
  cases connected with
  | true =>
    obtain ⟨_, _, rfl, last⟩ := asked.of_ask_bind
    obtain ⟨rfl, rfl⟩ := performs_pure.mp last
    exact .inl ⟨rfl, by simp [Step.IsAside]⟩
  | false =>
    obtain ⟨_, _, rfl, shown⟩ := asked.of_ask_bind
    obtain ⟨started, _, rfl, timed⟩ := shown.of_ask_bind
    obtain ⟨result, _, rfl, made⟩ := timed.of_ask_bind
    obtain ⟨_, _, rfl, unlocked⟩ := made.of_ask_bind
    split at unlocked
    next =>
      split at unlocked
      next =>
        obtain ⟨_, _, rfl, last⟩ := unlocked.of_ask_bind
        obtain ⟨rfl, rfl⟩ := performs_pure.mp last
        exact .inl ⟨rfl, by simp [Step.IsAside]⟩
      next =>
        obtain ⟨rfl, rfl⟩ := performs_pure.mp unlocked
        exact .inl ⟨rfl, by simp [Step.IsAside]⟩
    next retry =>
      obtain ⟨rfl, rfl⟩ := performs_pure.mp unlocked
      exact .inr ⟨rfl, .backoff retry, _, 0, 0, (List.append_nil _).symm, by simp [Step.IsAside],
        by simp⟩
    next fault other =>
      obtain ⟨ended, _, rfl, measured⟩ := unlocked.of_ask_bind
      obtain ⟨time, _, rfl, dated⟩ := measured.of_ask_bind
      obtain ⟨_, _, rfl, last⟩ := dated.of_ask_bind
      obtain ⟨rfl, rfl⟩ := performs_pure.mp last
      refine .inr ⟨rfl, fault, [⟨.lock link, ()⟩, ⟨.isConnected link, false⟩,
        ⟨.setState link .connecting, ()⟩, ⟨.now, started⟩, ⟨.connect link, .error fault⟩,
        ⟨.unlock link, ()⟩, ⟨.now, ended⟩, ⟨.clock, time⟩], time, ended - started, ?_, ?_, ?_⟩
      · rw [connectRecords_of_not_backoff other]
        rfl
      · simp [Step.IsAside]
      · simp

/-- The link is up unless it could not be made. -/
theorem ensureConnected_unconnected {α : Type} {p : Poller α} {up : Bool}
    (run : (ensureConnected c link p).Performs events (.done up)) :
    events.filterMap Event.read? = [] ∧ (Unconnected link events ↔ up = false) := by
  obtain ⟨rfl, silent⟩ | ⟨rfl, fault, before, time, latency, rfl, aside, member⟩ :=
    ensureConnected_cases run
  · refine ⟨List.filterMap_eq_nil_iff.mpr fun e he => Event.read?_of_isAside (silent e he).1, ?_⟩
    simpa [Unconnected] using fun fault member => (silent _ member).2 fault rfl
  · have unread : before.filterMap Event.read? = [] :=
      List.filterMap_eq_nil_iff.mpr fun e he => Event.read?_of_isAside (aside e he)
    refine ⟨?_, by simpa using ⟨fault, List.mem_append_left _ member⟩⟩
    rw [List.filterMap_append, unread, List.filterMap_map]
    exact List.filterMap_eq_nil_iff.mpr fun _ _ => rfl

theorem not_unconnected_of_isReading (reading : ∀ e ∈ events, e.step.IsReading) :
    ¬ Unconnected link events := by
  rintro ⟨fault, member⟩
  exact reading _ member

theorem unconnected_append {earlier later : List Event} :
    Unconnected link (earlier ++ later) ↔ Unconnected link earlier ∨ Unconnected link later := by
  simp [Unconnected, exists_or]

theorem readPlan_accounted {α : Type} {p : Poller α} {tally : Tally}
    (run : (readPlan c link p plan).Performs events (.done tally)) :
    ∃ attempts, tally.readings = attempts.flatMap Attempt.readings ∧
      Accounted link plan events attempts tally.succeeded tally.failed tally.readings.length := by
  unfold readPlan at run
  split at run
  next empty =>
    obtain ⟨rfl, rfl⟩ := performs_pure.mp run
    have none : plan.batches = [] := by simpa [Plan.isEmpty] using empty
    refine ⟨[], rfl, by simp, rfl, .inl (by simp [Plan.size, none]), ?_, fun _ => rfl, rfl, rfl⟩
    simp [Unconnected]
  next =>
    obtain ⟨up, earlier, later, rfl, connected, rest⟩ := run.of_bind
    obtain ⟨none, down⟩ := ensureConnected_unconnected connected
    cases up with
    | false =>
      obtain ⟨rfl, rfl⟩ := performs_pure.mp rest
      have unmade : Unconnected link earlier := down.mpr rfl
      rw [List.append_nil]
      exact ⟨[], rfl, by simp, none, .inr (.inr unmade), fun _ => ⟨rfl, rfl, rfl⟩,
        fun made => absurd unmade made, rfl, rfl⟩
    | true =>
      obtain ⟨attempts, order, reads, rfl, complete⟩ := readBatches_reads rest
      have made : ¬ Unconnected link (earlier ++ later) := by
        rw [unconnected_append, down]
        rintro (wrong | unmade)
        · cases wrong
        · exact not_unconnected_of_isReading (readBatches_isReading.of_performs rest) unmade
      refine ⟨attempts, by simp [Tally.readings_addAll], order, ?_, ?_, fun unmade =>
        absurd unmade made, fun _ => by simp [Tally.total_addAll], by simp [Tally.succeeded_addAll],
        ?_⟩
      · rw [List.filterMap_append, none, reads]
        rfl
      · exact complete.imp_right fun member => .inl (List.mem_append_right _ member)
      · rw [Tally.readings_addAll]
        exact length_flatMap_readings attempts

theorem readPlan_only {α : Type} (p : Poller α) : (readPlan c link p plan).Only Step.IsInner := by
  unfold readPlan
  split
  next => trivial
  next =>
    refine .bind (ensureConnected_only p) fun up => ?_
    cases up with
    | true => exact readBatches_isReading.mono fun _ => Step.IsReading.isInner
    | false => trivial

/-- A cycle asks for the plan at its start, and publishes the readings of the batches that it
read at its end. -/
theorem cycle_accounted {α : Type} [DelayNumber α] {p next : Poller α} {report : CycleReport}
    (run : (cycle c link p).Performs events (.done (next, report))) :
    ∃ plan before after attempts,
      events = ⟨.plan link, plan⟩ :: before ++
        ⟨.publish (cycleWrites c.id (attempts.flatMap Attempt.readings)), ()⟩ :: after ∧
      (∀ e ∈ before ++ after, e.step.IsInner) ∧
      Accounted link plan events attempts report.succeeded report.failed report.points := by
  obtain ⟨plan, _, rfl, planned⟩ := run.of_ask_bind
  obtain ⟨started, _, rfl, timed⟩ := planned.of_ask_bind
  obtain ⟨tally, middle, _, rfl, passed, rest⟩ := timed.of_bind
  obtain ⟨attempts, same, account⟩ := readPlan_accounted passed
  obtain ⟨_, _, rfl, published⟩ := rest.of_ask_bind
  obtain ⟨ended, _, rfl, measured⟩ := published.of_ask_bind
  obtain ⟨_, _, rfl, shown⟩ := measured.of_ask_bind
  obtain ⟨_, _, rfl, last⟩ := shown.of_ask_bind
  obtain ⟨rfl, made⟩ := performs_pure.mp last
  cases made
  rw [same] at account ⊢
  have inner := (readPlan_only p).of_performs passed
  refine ⟨plan, ⟨.now, started⟩ :: middle, _, attempts, rfl, ?_, ?_⟩
  · intro e he
    rcases List.mem_append.mp he with he | he
    · rcases List.mem_cons.mp he with rfl | he
      · trivial
      · exact inner e he
    · simp only [List.mem_cons, List.not_mem_nil, or_false] at he
      rcases he with rfl | rfl | rfl
      · trivial
      · trivial
      · trivial
  · show Accounted link plan ([_, _] ++ middle ++ _) attempts _ _ _
    exact account.within (by simp [Event.read?])

end

/-! ## The publication -/

/-- What a cycle makes of the store, at the keys that are left to it. -/
structure Published (c : Channel) (plan : Plan) (attempts : List Attempt) (time : Int)
    (own : StoreKey → Prop) (before after : Store) : Prop where
  /-- A point of a batch that succeeded has the value of the try that did, and the one time. -/
  renewed : ∀ a ∈ attempts, a.succeeded = true → ∀ p ∈ a.batch.points, own (c.key p) →
    ∃ v, a.Gives p v ∧ after.get? (c.key p) = some ⟨v, time⟩
  /-- Nothing else is written. -/
  kept : ∀ key, own key →
    (∀ a ∈ attempts, a.succeeded = true → ∀ p ∈ a.batch.points, c.key p ≠ key) →
    after.get? key = before.get? key
  /-- In particular no point of a batch that failed or was not read. -/
  stale : ∀ (i : Nat) (b : Batch), plan.batches[i]? = some b →
    (∀ a : Attempt, attempts[i]? = some a → a.succeeded = false) →
    ∀ p ∈ b.points, own (c.key p) → after.get? (c.key p) = before.get? (c.key p)

section

variable {c : Channel} {plan : Plan} {attempts : List Attempt}

/-- The readings of a cycle have distinct ids. -/
theorem nodup_readings (distinct : plan.Distinct)
    (order : attempts.map Attempt.batch <+: plan.batches) :
    ((attempts.flatMap Attempt.readings).map Reading.point).Nodup := by
  have within : ((attempts.flatMap Attempt.readings).map Reading.point).Sublist
      (((attempts.map Attempt.batch).flatMap Batch.points).map Point.id) := by
    clear order
    induction attempts with
    | nil => exact .slnil
    | cons a rest ih =>
      simp only [List.map_cons, List.flatMap_cons, List.map_append]
      refine List.Sublist.append ?_ ih
      cases done : a.succeeded with
      | true => rw [Attempt.ids_readings done]
      | false => simp [Attempt.readings_of_not_succeeded done]
  obtain ⟨rest, whole⟩ := order
  rw [Plan.Distinct, ← whole, List.flatMap_append, List.map_append] at distinct
  exact (List.Nodup.of_append_left distinct).sublist within

theorem valueOf?_of_reading (channel : UInt16) (distinct : plan.Distinct)
    (order : attempts.map Attempt.batch <+: plan.batches) {r : Reading}
    (hr : r ∈ attempts.flatMap Attempt.readings) :
    StoreWrite.valueOf? (cycleWrites channel (attempts.flatMap Attempt.readings))
      ⟨channel, r.category, r.point⟩ = some r.value := by
  rw [valueOf?_cycleWrites, if_pos rfl]
  refine lastValue?_eq_some hr (by simp [Reading.valueAt?]) fun x hx y value => ?_
  unfold Reading.valueAt? at value
  split at value
  next place =>
    cases value
    rw [List.inj_on_of_nodup_map (nodup_readings distinct order) hx hr place.2]
  next => cases value

/-- The readings of a cycle are of points of batches that succeeded. -/
theorem exists_attempt {r : Reading} (hr : r ∈ attempts.flatMap Attempt.readings) :
    ∃ a ∈ attempts, a.succeeded = true ∧ ∃ p ∈ a.batch.points,
      r = ⟨p.id, p.category, r.value⟩ := by
  obtain ⟨a, ha, hr⟩ := List.mem_flatMap.mp hr
  obtain ⟨done, p, hp, shape⟩ := Attempt.exists_point hr
  exact ⟨a, ha, done, p, hp, shape⟩

theorem published_of_get? (distinct : plan.Distinct)
    (order : attempts.map Attempt.batch <+: plan.batches) {time : Int} {own : StoreKey → Prop}
    {before after : Store}
    (effect : ∀ key, own key → after.get? key =
      ((StoreWrite.valueOf? (cycleWrites c.id (attempts.flatMap Attempt.readings)) key).map
        (⟨·, time⟩)).or (before.get? key)) :
    Published c plan attempts time own before after := by
  have kept : ∀ key, own key →
      (∀ a ∈ attempts, a.succeeded = true → ∀ p ∈ a.batch.points, c.key p ≠ key) →
      after.get? key = before.get? key := by
    intro key mine elsewhere
    rw [effect key mine]
    cases value : StoreWrite.valueOf? (cycleWrites c.id (attempts.flatMap Attempt.readings))
        key with
    | none => rfl
    | some v =>
      obtain ⟨channel, r, hr, category, point, -⟩ := reading_of_valueOf?_cycleWrites value
      obtain ⟨a, ha, done, p, hp, shape⟩ := exists_attempt hr
      refine absurd ?_ (elsewhere a ha done p hp)
      have place : p.category = key.category := (congrArg Reading.category shape).symm.trans category
      have id : p.id = key.point := (congrArg Reading.point shape).symm.trans point
      rw [Channel.key, channel, place, id]
  refine ⟨?_, kept, ?_⟩
  · intro a ha done p hp mine
    obtain ⟨v, gives, member⟩ := Attempt.exists_reading done hp
    have hr : ⟨p.id, p.category, v⟩ ∈ attempts.flatMap Attempt.readings :=
      List.mem_flatMap.mpr ⟨a, ha, member⟩
    refine ⟨v, gives, ?_⟩
    have value := valueOf?_of_reading c.id distinct order hr
    rw [effect _ mine, Channel.key, value]
    rfl
  · intro i b hb failed p hp mine
    -- A point with this id in a batch that succeeded would be in two batches of the plan.
    refine kept _ mine fun a ha done q hq same => ?_
    obtain ⟨j, hj⟩ := List.getElem?_of_mem ha
    have there : plan.batches[j]? = some a.batch := by
      obtain ⟨rest, whole⟩ := order
      have inside : (attempts.map Attempt.batch)[j]? = some a.batch := by simp [hj]
      rw [← whole]
      exact List.getElem?_append_left (List.getElem?_eq_some_iff.mp inside).1 ▸ inside
    have here : i = j := distinct.index_eq hb there hp hq (congrArg StoreKey.point same).symm
    subst here
    rw [failed a hj] at done
    cases done

end

/-! ## A cycle in company -/

/-- What a poll cycle and the activities around it end with. -/
@[reducible] def Company {ι : Type} (α : Type) (γ : ι → Type) : Option ι → Type
  | none => Poller α × CycleReport
  | some i => γ i

theorem touches_of_isInner {s : Step} (inner : s.IsInner) (key : StoreKey) :
    touches key s = false := by
  cases s with
  | publish _ | forget _ => exact inner.elim
  | _ => rfl

/-- A cycle reads the first batches of the plan that it is given at its start, and counts them.
Of all keys that nobody else touches meanwhile, it renews those of the points of the batches that
succeeded, at one time. -/
theorem cycle_accounts {α ι : Type} [DelayNumber α] [DecidableEq ι] {γ : ι → Type}
    {given : Event → Prop} {c : Channel} {link : LinkId} {p next : Poller α} {report : CycleReport}
    {s s' : Ensemble (Company α γ)} {history : List (Option ι × Event)}
    (run : Run given s history s') (begun : s.tasks none = cycle c link p)
    (ended : s'.tasks none = .done (next, report))
    (distinct : ∀ plan, (none, ⟨.plan link, plan⟩) ∈ history → plan.Distinct) :
    ∃ plan rest attempts time,
      eventsOf none history = ⟨.plan link, plan⟩ :: rest ∧
      Accounted link plan (eventsOf none history) attempts report.succeeded report.failed
        report.points ∧
      Published c plan attempts time
        (fun key => ∀ e ∈ history, e.1 ≠ none → touches key e.2.step = false)
        s.store s'.store := by
  have performed := run.performs none
  rw [begun, ended] at performed
  obtain ⟨plan, before, after, attempts, whole, inner, account⟩ := cycle_accounted performed
  obtain ⟨earlier, later, rfl, first, last⟩ := split_of_eventsOf whole
  have member : (none, ⟨.plan link, plan⟩) ∈ earlier := by
    rw [← mem_eventsOf, first]
    exact List.mem_cons_self
  have known := distinct plan (List.mem_append_left _ member)
  obtain ⟨time, effect⟩ := run.get?_publish
  refine ⟨plan, _, attempts, time, whole, account, published_of_get? known account.order ?_⟩
  intro key apart
  -- Of what the cycle itself does, its one publication alone touches the store.
  refine effect key fun e he => ?_
  obtain ⟨party, e⟩ := e
  cases party with
  | some i =>
    refine apart (some i, e) ?_ (Option.some_ne_none i)
    rcases List.mem_append.mp he with he | he
    · exact List.mem_append_left _ he
    · exact List.mem_append_right _ (List.mem_cons_of_mem _ he)
  | none =>
    have own : e = ⟨.plan link, plan⟩ ∨ e ∈ before ++ after := by
      rcases List.mem_append.mp he with he | he
      · rw [← mem_eventsOf, first] at he
        exact (List.mem_cons.mp he).imp_right (List.mem_append_left _)
      · rw [← mem_eventsOf, last] at he
        exact .inr (List.mem_append_right _ he)
    rcases own with rfl | own
    · rfl
    · exact touches_of_isInner (inner e own) key

/-! ## A cycle with a batch that fails -/

/-- A channel whose points lie too far apart for one batch. -/
def halved : Channel :=
  { id := 7, name := "halved", medium := .tcp "127.0.0.1" 502
    points := [{ id := 1, address := 0, type := .uint16 },
      { id := 2, address := 500, type := .uint16 }] }

def halvedPlan : Plan := ⟨groupPoints halved.limits halved.points⟩

theorem halved_planned : halved.plan = .ok halvedPlan := by
  have fit : ∀ p ∈ halved.points, ¬ p.Unfit halved.limits := by decide
  have sorted : sortPoints halved.points = halved.points := List.mergeSort_of_pairwise (by decide)
  exact plan_eq_ok_iff.mpr ⟨fit, by rw [sorted]; rfl⟩

/-- The device answers for the first point only. -/
def halvedAnswer : (s : Step) → s.Answer
  | .plan _ => halvedPlan
  | .read _ b => if b.start = 0 then .ok [3] else .error (.connection "closed by peer")
  | s => (inferInstance : Inhabited s.Answer).default

/-- A cycle over the channel, and somebody who swaps the plan. -/
def halvedStart : Ensemble (Company Binary64 fun _ : Unit => Unit) where
  tasks
    | none => cycle halved 0 (.ofChannel halved (.ofNat 2))
    | some () => .step (.setPlan 0 {}) .done
  store := (Store.put {} ⟨7, .telemetry, 1⟩ ⟨.ofNat 9, -1⟩).put ⟨7, .telemetry, 2⟩ ⟨.ofNat 9, -1⟩

/-- The plan is swapped between the reads of the two batches. -/
def halvedPlay :
    List (Option Unit × Event) × Ensemble (Company Binary64 fun _ : Unit => Unit) :=
  Ensemble.play halvedAnswer (List.replicate 16 none ++ some () :: List.replicate 30 none)
    halvedStart

theorem halved_run :
    Run (fun e => e.answer = halvedAnswer e.step) halvedStart halvedPlay.1 halvedPlay.2 :=
  Ensemble.run_play (fun _ => rfl) _ halvedStart

/-- One batch is read and one fails, whose point keeps its sample. -/
theorem halved_accounts :
    ∃ next report rest attempts time,
      halvedPlay.2.tasks none = .done (next, report) ∧
      eventsOf none halvedPlay.1 = ⟨.plan 0, halvedPlan⟩ :: rest ∧
      Accounted 0 halvedPlan (eventsOf none halvedPlay.1) attempts 1 1 1 ∧
      Published halved halvedPlan attempts time
        (fun key => ∀ e ∈ halvedPlay.1, e.1 ≠ none → touches key e.2.step = false)
        halvedStart.store halvedPlay.2.store ∧
      halvedPlay.2.store.get? ⟨7, .telemetry, 1⟩ = some ⟨.ofNat 3, 0⟩ ∧
      halvedPlay.2.store.get? ⟨7, .telemetry, 2⟩ = some ⟨.ofNat 9, -1⟩ := by
  have given : ∀ plan, (none, ⟨.plan 0, plan⟩) ∈ halvedPlay.1 → plan = halvedPlan :=
    fun plan asked => halved_run.known _ asked
  have ended : halvedPlay.2.tasks none =
      .done (⟨.start (millis 1000) (.ofNat 2) (millis 60000), 1⟩,
        { cycle := 1, succeeded := 1, failed := 1, points := 1, duration := 0
          interval := millis 1000 }) := rfl
  have distinct : halvedPlan.Distinct := Channel.distinct_of_plan halved_planned (by decide)
  obtain ⟨plan, rest, attempts, time, whole, account, published⟩ :=
    cycle_accounts halved_run rfl ended fun plan asked => given plan asked ▸ distinct
  have asked : (none, ⟨.plan 0, plan⟩) ∈ halvedPlay.1 := by
    rw [← mem_eventsOf, whole]
    exact List.mem_cons_self
  cases given plan asked
  exact ⟨_, _, rest, attempts, time, ended, whole, account, published, by decide +kernel,
    by decide +kernel⟩

end Poll

end Fieldbus
