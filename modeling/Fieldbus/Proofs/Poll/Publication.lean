import Fieldbus.Poll.Poller
import Fieldbus.Proofs.Activity.Trace

/-!
# What a poll loop publishes

All that a poll loop publishes was read in the cycle that the publication ends
(`Poll.run_ensures`).  The invariant inside a cycle is `Gathered`: since the plan was asked for,
nothing was published, and each reading so far stems from a read over the link.
-/

namespace Fieldbus

/-- The event is a read over the link that gave the reading. -/
def Event.Reads (link : LinkId) (r : Reading) : Event → Prop
  | ⟨.read l b, answer⟩ =>
    l = link ∧ ∃ words readings, answer = .ok words ∧ b.decode words = .ok readings ∧ r ∈ readings
  | _ => False

namespace Poll

open Activity (Only Ensures ensures_bind ensures_ask_bind ask)

/-- The readings were made since the cycle began, and the cycle has published nothing. -/
def Gathered (link : LinkId) (past : List Event) (readings : List Reading) : Prop :=
  ∃ before plan since, past = before ++ ⟨.plan link, plan⟩ :: since ∧
    (∀ e ∈ since, e.step.IsInner) ∧ ∀ r ∈ readings, ∃ e ∈ since, e.Reads link r

/-- Whether a poll loop may do something after a past. -/
def May (c : Channel) (link : LinkId) (past : List Event) (e : Event) : Prop :=
  match e.step with
  | .publish writes => ∃ readings, writes = cycleWrites c.id readings ∧ Gathered link past readings
  | .write .. | .forget _ => False
  | _ => True

/-! ## Gathering -/

section

variable {link : LinkId} {past : List Event} {readings : List Reading}

theorem gathered_start (plan : Plan) : Gathered link (past ++ [⟨.plan link, plan⟩]) [] :=
  ⟨past, plan, [], rfl, by simp, by simp⟩

theorem Gathered.snoc (h : Gathered link past readings) {e : Event} (inner : e.step.IsInner)
    {more : List Reading} (read : ∀ r ∈ more, e.Reads link r) :
    Gathered link (past ++ [e]) (readings ++ more) := by
  obtain ⟨before, plan, since, rfl, quiet, found⟩ := h
  refine ⟨before, plan, since ++ [e], by simp, ?_, ?_⟩
  · intro x hx
    rcases List.mem_append.mp hx with hx | hx
    · exact quiet x hx
    · cases List.mem_singleton.mp hx
      exact inner
  · intro r hr
    rcases List.mem_append.mp hr with hr | hr
    · obtain ⟨x, hx, reads⟩ := found r hr
      exact ⟨x, List.mem_append_left _ hx, reads⟩
    · exact ⟨e, by simp, read r hr⟩

theorem Gathered.inner (h : Gathered link past readings) {e : Event} (inner : e.step.IsInner) :
    Gathered link (past ++ [e]) readings := by
  have more : Gathered link (past ++ [e]) (readings ++ []) := h.snoc inner (by simp)
  simpa using more

/-- What a cycle gathered was read after some time, or the cycle was under way at that time. -/
theorem Gathered.split {earlier later : List Event} {r : Reading}
    (h : Gathered link (earlier ++ later) readings) (hr : r ∈ readings) :
    (∃ e ∈ later, e.Reads link r) ∨
      Gathered link earlier [r] ∧ ∀ e ∈ later, e.step.IsInner := by
  obtain ⟨before, plan, since, whole, quiet, found⟩ := h
  obtain ⟨e, he, reads⟩ := found r hr
  rcases Activity.cut_of_append_eq whole with ⟨rest, rfl⟩ | ⟨begun, rfl, rfl⟩
  · exact .inl ⟨e, by simp [he], reads⟩
  · rcases List.mem_append.mp he with he | he
    · refine .inr ⟨⟨before, plan, begun, rfl, ?_, ?_⟩, ?_⟩
      · exact fun x hx => quiet x (List.mem_append_left _ hx)
      · exact fun x hx => ⟨e, he, List.mem_singleton.mp hx ▸ reads⟩
      · exact fun x hx => quiet x (List.mem_append_right _ hx)
    · exact .inl ⟨e, he, reads⟩

end

variable {α : Type} {given : Event → Prop} {c : Channel} {link : LinkId}

theorem may_of_isInner {past : List Event} {e : Event} (inner : e.step.IsInner) :
    May c link past e := by
  obtain ⟨step, answer⟩ := e
  cases step with
  | publish _ | write _ _ _ | forget _ => exact inner.elim
  | _ => trivial

theorem Gathered.after {β γ : Type} {a : Activity β} {f : β → Activity γ}
    {post : List Event → γ → Prop} {past : List Event} {readings : List Reading}
    (h : Gathered link past readings) (inner : a.Only Step.IsInner)
    (rest : ∀ v past, Gathered link past readings →
      (f v).Ensures ⟨given, May c link⟩ post past) :
    (a >>= f).Ensures ⟨given, May c link⟩ post past :=
  inner.then h (fun _ _ inner kept => ⟨may_of_isInner inner, kept.inner inner⟩) rest

/-! ## The steps of a cycle -/

theorem ensureConnected_only (p : Poller α) :
    (ensureConnected c link p).Only Step.IsInner := by
  refine .ask_bind trivial fun _ => .ask_bind trivial fun up => ?_
  split
  · exact .ask_bind trivial fun _ => trivial
  · refine .ask_bind trivial fun _ => .ask_bind trivial fun _ =>
      .ask_bind trivial fun result => .ask_bind trivial fun _ => ?_
    split
    · split
      · exact .ask_bind trivial fun _ => trivial
      · trivial
    · trivial
    · exact .ask_bind trivial fun _ => .ask_bind trivial fun _ =>
        .ask_bind trivial fun _ => trivial

theorem logRead_only (b : Batch) (started : Nanos) (made : Nat) (fault : Option Fault)
    (frames : Option Log.Frames) : (logRead c b started made fault frames).Only Step.IsInner :=
  .ask_bind trivial fun _ => .ask_bind trivial fun _ =>
    .ask trivial

theorem readOnce_ensures {b : Batch} {past : List Event} {readings : List Reading}
    (h : Gathered link past readings) :
    (readOnce c link b).Ensures ⟨given, May c link⟩
      (fun past result => Gathered link past (readings ++ result.1.toOption.getD [])) past := by
  refine h.after (.ask trivial) fun _ past h => ?_
  refine ensures_ask_bind.mpr fun result _ => ⟨trivial, ?_⟩
  have read : Gathered link (past ++ [⟨.read link b, result⟩])
      (readings ++ (result >>= b.decode).toOption.getD []) := by
    have inner : Step.IsInner (.read link b) := trivial
    refine h.snoc inner fun r hr => ?_
    cases result with
    | error fault => simp [bind, Except.bind, Except.toOption] at hr
    | ok words =>
      cases decoded : b.decode words with
      | error fault => simp [bind, Except.bind, Except.toOption, decoded] at hr
      | ok new =>
        have member : r ∈ new := by simpa [bind, Except.bind, Except.toOption, decoded] using hr
        exact ⟨rfl, words, new, rfl, decoded, member⟩
  have tail {frames : Activity (Option Log.Frames)} (inner : frames.Only Step.IsInner) :
      (do
        let frames ← frames
        ask (.unlock link)
        return (result >>= b.decode, frames)).Ensures ⟨given, May c link⟩
        (fun past (result : Except Fault (List Reading) × Option Log.Frames) =>
          Gathered link past (readings ++ result.1.toOption.getD []))
        (past ++ [(⟨.read link b, result⟩ : Event)]) := by
    refine read.after inner fun _ past read => ?_
    refine read.after (.ask trivial) fun _ past read => ?_
    exact read
  split
  · refine tail ?_
    exact .bind (.ask trivial) fun _ => trivial
  · refine tail ?_
    trivial

theorem tryBatch_ensures {b : Batch} (started : Nanos) (made left : Nat) {past : List Event}
    {readings : List Reading} (h : Gathered link past readings) :
    (tryBatch c link b started made left).Ensures ⟨given, May c link⟩
      (fun past result => Gathered link past (readings ++ result.getD [])) past := by
  induction left generalizing made past with
  | zero =>
    refine (ensures_bind _ _).mpr ((readOnce_ensures h).mono fun past tried h => ?_)
    obtain ⟨result, frames⟩ := tried
    cases result with
    | ok new =>
      refine h.after (logRead_only ..) fun _ past h => ?_
      exact h
    | error fault =>
      refine h.after (logRead_only ..) fun _ past h => ?_
      exact h
  | succ left ih =>
    refine (ensures_bind _ _).mpr ((readOnce_ensures h).mono fun past tried h => ?_)
    obtain ⟨result, frames⟩ := tried
    cases result with
    | ok new =>
      refine h.after (logRead_only ..) fun _ past h => ?_
      exact h
    | error fault =>
      refine h.after (.ask trivial) fun _ past h => ?_
      refine h.after (.ask trivial) fun cancelled past h => ?_
      have none : Gathered link past readings := by simpa [Except.toOption] using h
      cases cancelled with
      | true =>
        refine h.after (logRead_only ..) fun _ past h => ?_
        exact h
      | false => exact ih (made + 1) none

theorem readBatch_ensures {b : Batch} {past : List Event} {readings : List Reading}
    (h : Gathered link past readings) :
    (readBatch c link b).Ensures ⟨given, May c link⟩
      (fun past result => Gathered link past (readings ++ result.getD [])) past := by
  refine h.after (.ask trivial) fun started past h => ?_
  exact tryBatch_ensures started 0 _ h

theorem Tally.readings_add (t : Tally) (result : Option (List Reading)) :
    (t.add result).readings = t.readings ++ result.getD [] := by
  cases result <;> simp [Tally.add]

theorem readBatches_ensures (first : Bool) (t : Tally) (batches : List Batch) {past : List Event}
    (h : Gathered link past t.readings) :
    (readBatches c link first t batches).Ensures ⟨given, May c link⟩
      (fun past t => Gathered link past t.readings) past := by
  induction batches generalizing first t past with
  | nil => exact h
  | cons b rest ih =>
    have further {past : List Event} (h : Gathered link past t.readings) :
        (readBatch c link b >>= fun result =>
          readBatches c link false (t.add result) rest).Ensures ⟨given, May c link⟩
          (fun past t => Gathered link past t.readings) past := by
      refine (ensures_bind _ _).mpr ((readBatch_ensures h).mono fun past result h => ?_)
      rw [← Tally.readings_add] at h
      exact ih false (t.add result) h
    refine h.after (.ask trivial) fun cancelled past h => ?_
    cases cancelled with
    | true => exact h
    | false =>
      simp only [Bool.false_eq_true, if_false]
      split
      · refine h.after (.ask trivial) fun _ past h => ?_
        refine h.after (.ask trivial) fun _ past h => ?_
        exact further h
      · exact further h

theorem readPlan_ensures (p : Poller α) (plan : Plan) {past : List Event}
    (h : Gathered link past []) :
    (readPlan c link p plan).Ensures ⟨given, May c link⟩
      (fun past t => Gathered link past t.readings) past := by
  unfold readPlan
  split
  · exact h
  · refine h.after (ensureConnected_only p) fun up past h => ?_
    cases up with
    | true => exact readBatches_ensures true {} _ h
    | false => exact h

/-! ## Cycles -/

variable [DelayNumber α]

theorem free {β : Type} {a : Activity β} {past : List Event} (inner : a.Only Step.IsInner) :
    a.Ensures ⟨given, May c link⟩ (fun _ _ => True) past :=
  inner.ensures trivial fun _ _ inner _ => ⟨may_of_isInner inner, trivial⟩

theorem cycle_ensures (p : Poller α) (past : List Event) :
    (cycle c link p).Ensures ⟨given, May c link⟩ (fun _ _ => True) past := by
  refine ensures_ask_bind.mpr fun plan _ => ⟨trivial, ?_⟩
  have start : Gathered link (past ++ [⟨.plan link, plan⟩]) [] := gathered_start plan
  refine start.after (.ask trivial) fun started past h => ?_
  refine (ensures_bind _ _).mpr ((readPlan_ensures p plan h).mono fun past tally h => ?_)
  refine ensures_ask_bind.mpr fun _ _ => ⟨⟨tally.readings, rfl, h⟩, ?_⟩
  exact free (.ask_bind trivial fun _ => .ask_bind trivial fun _ => .ask_bind trivial fun _ =>
    trivial)

theorem loop_ensures (fuel : Nat) (p : Poller α) (past : List Event) :
    (loop c link fuel p).Ensures ⟨given, May c link⟩ (fun _ _ => True) past := by
  induction fuel generalizing p past with
  | zero => trivial
  | succ fuel ih =>
    refine ensures_ask_bind.mpr fun cancelled _ => ⟨trivial, ?_⟩
    cases cancelled with
    | true => trivial
    | false =>
      refine ensures_ask_bind.mpr fun started _ => ⟨trivial, (ensures_bind _ _).mpr ?_⟩
      refine (cycle_ensures p _).mono fun past made _ => ?_
      refine ensures_ask_bind.mpr fun ended _ => ⟨trivial, ?_⟩
      cases ended with
      | true => trivial
      | false => exact ih made.1 _

/-- A poll loop publishes what it read since its cycle began. -/
theorem run_ensures (fuel : Nat) (p : Poller α) :
    (run c link fuel p).Ensures ⟨given, May c link⟩ (fun _ _ => True) [] := by
  refine (ensures_bind _ _).mpr ((loop_ensures fuel p []).mono fun past p _ => ?_)
  exact free (.ask_bind trivial fun _ => trivial)

end Poll

end Fieldbus
