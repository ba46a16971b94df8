import Fieldbus.Proofs.Command.ReadBack
import Fieldbus.Proofs.Poll.Reading
import Fieldbus.Proofs.Store.View

/-!
# What a poll loop shows while it backs off

A poll loop backs off from the report of a cycle that failed as a whole to the report of a cycle
that succeeded as a whole.  In that span it shows a state that refuses commands, with two
exceptions (`Poll.shown_while_backingOff`): it shows that it is connecting from an attempt to make
the link to the end of the cycle, and that it polls right before the report that ends the span.

So a command that comes while the link is made again is not refused
(`Poll.commanded_while_backingOff`).
-/

namespace Fieldbus

/-! ## Views of a past -/

/-- The state that the event shows for a link. -/
def Event.stateOf? (link : LinkId) : Event → Option ChannelState
  | ⟨.setState l state, _⟩ => if l = link then some state else none
  | _ => none

/-- The report of a cycle over a link that the event makes. -/
def Event.reportOf? (link : LinkId) : Event → Option CycleReport
  | ⟨.report l report, _⟩ => if l = link then some report else none
  | _ => none

/-- A step that shows no state and ends no cycle. -/
def Step.IsSilent : Step → Prop
  | .setState .. | .report .. => False
  | _ => True

theorem Step.IsReading.isSilent {s : Step} (h : s.IsReading) : s.IsSilent := by
  cases s with
  | setState _ _ | report _ _ => exact h.elim
  | _ => trivial

theorem Event.stateOf?_of_isSilent {e : Event} (silent : e.step.IsSilent) (link : LinkId) :
    e.stateOf? link = none := by
  obtain ⟨step, answer⟩ := e
  cases step with
  | setState _ _ => exact silent.elim
  | _ => rfl

theorem Event.reportOf?_of_isSilent {e : Event} (silent : e.step.IsSilent) (link : LinkId) :
    e.reportOf? link = none := by
  obtain ⟨step, answer⟩ := e
  cases step with
  | report _ _ => exact silent.elim
  | _ => rfl

/-! ## Refused commands -/

/-- A command that finds a channel in a state that refuses commands fails, and asks for nothing
more. -/
theorem Command.fails_of_rejectsCommands {state : ChannelState}
    (rejects : state.rejectsCommands = true) {command : Command} {h : ChannelHandle}
    {events : List Event} {status : CommandStatus}
    (run : command.dispatch.Performs
      (⟨.find command.channel, some h⟩ :: ⟨.state h.link, state⟩ :: events) (.done status)) :
    events = [] ∧ ∃ cause, status = .failed cause := by
  obtain ⟨_, _, split, ⟨cause, -, none, failed⟩ | ⟨p, words, aimed, -⟩⟩ := dispatch_cases run
  · cases split
    exact ⟨none, cause, failed⟩
  · cases split
    rw [rejectsCommands_of_aim aimed] at rejects
    cases rejects

namespace Poll

open Activity (Only Ensures ensures_bind ensures_ask_bind ask)

/-- The state that a loop shows after a past. -/
def shown (link : LinkId) (past : List Event) : ChannelState :=
  (lastValue? (Event.stateOf? link) past).getD .idle

@[simp] theorem shown_setState (link : LinkId) (past : List Event) (state : ChannelState) :
    shown link (past ++ [⟨.setState link state, ()⟩]) = state := by
  simp [shown, lastValue?_append, lastValue?_cons, Event.stateOf?]

theorem shown_of_stateOf? {e : Event} {link : LinkId} (quiet : e.stateOf? link = none)
    (past : List Event) : shown link (past ++ [e]) = shown link past := by
  simp [shown, lastValue?_append, lastValue?_cons, quiet]

/-- The link was found down in the cycle under way. -/
def FoundDown (link : LinkId) (past : List Event) : Prop :=
  ∃ before since, past = before ++ ⟨.isConnected link, false⟩ :: since ∧
    ∀ e ∈ since, e.reportOf? link = none

theorem FoundDown.snoc {link : LinkId} {past : List Event} (h : FoundDown link past) {e : Event}
    (quiet : e.reportOf? link = none) : FoundDown link (past ++ [e]) := by
  obtain ⟨before, since, rfl, same⟩ := h
  refine ⟨before, since ++ [e], by simp, ?_⟩
  intro x hx
  rcases List.mem_append.mp hx with hx | hx
  · exact same x hx
  · cases List.mem_singleton.mp hx
    exact quiet

/-- A state is shown that refuses commands, or that the link is made in the cycle under way. -/
def Withheld (link : LinkId) (past : List Event) : Prop :=
  (shown link past).rejectsCommands = true ∨ shown link past = .connecting ∧ FoundDown link past

theorem Withheld.silent {link : LinkId} {past : List Event} (h : Withheld link past) {e : Event}
    (silent : e.step.IsSilent) : Withheld link (past ++ [e]) := by
  unfold Withheld
  rw [shown_of_stateOf? (Event.stateOf?_of_isSilent silent link)]
  exact h.imp_right fun ⟨connecting, down⟩ =>
    ⟨connecting, down.snoc (Event.reportOf?_of_isSilent silent link)⟩

variable {α : Type}

/-- The backoff after the cycles that a past reports. -/
def backoffAfter (link : LinkId) (b : CycleBackoff α) (past : List Event) : CycleBackoff α :=
  (past.filterMap (Event.reportOf? link)).foldl (fun b r => b.onCycle r.outcome) b

@[simp] theorem backoffAfter_report (link : LinkId) (b : CycleBackoff α) (past : List Event)
    (r : CycleReport) :
    backoffAfter link b (past ++ [⟨.report link r, ()⟩]) =
      (backoffAfter link b past).onCycle r.outcome := by
  simp [backoffAfter, Event.reportOf?]

theorem backoffAfter_of_reportOf? {e : Event} {link : LinkId} (quiet : e.reportOf? link = none)
    (b : CycleBackoff α) (past : List Event) :
    backoffAfter link b (past ++ [e]) = backoffAfter link b past := by
  simp [backoffAfter, quiet]

/-- Whether a loop that began with a backoff may do something after a past. -/
def MayShow (link : LinkId) (b : CycleBackoff α) (past : List Event) (e : Event) : Prop :=
  (backoffAfter link b past).isBackingOff = true →
    Withheld link past ∨
      shown link past = .polling ∧ (∃ r, e = ⟨.report link r, ()⟩) ∧
        (backoffAfter link b (past ++ [e])).isBackingOff = false

/-- A cycle is under way, and what is shown while the loop backs off is withheld. -/
structure Steady (link : LinkId) (b now : CycleBackoff α) (past : List Event) : Prop where
  backoff : backoffAfter link b past = now
  withheld : now.isBackingOff = true → Withheld link past

variable {c : Channel} {link : LinkId} {b now : CycleBackoff α} {past : List Event}
  {given : Event → Prop}

theorem Steady.may (h : Steady link b now past) (e : Event) : MayShow link b past e := by
  intro backing
  rw [h.backoff] at backing
  exact .inl (h.withheld backing)

theorem Steady.silent (h : Steady link b now past) {e : Event} (silent : e.step.IsSilent) :
    Steady link b now (past ++ [e]) := by
  constructor
  · rw [backoffAfter_of_reportOf? (Event.reportOf?_of_isSilent silent link)]
    exact h.backoff
  · intro backing
    exact (h.withheld backing).silent silent

theorem Steady.setState (h : Steady link b now past) (state : ChannelState)
    (withheld : now.isBackingOff = true →
      Withheld link (past ++ [⟨.setState link state, ()⟩])) :
    Steady link b now (past ++ [⟨.setState link state, ()⟩]) := by
  constructor
  · rw [backoffAfter_of_reportOf? rfl]
    exact h.backoff
  · exact withheld

theorem Steady.after {β γ : Type} {a : Activity β} {f : β → Activity γ}
    {post : List Event → γ → Prop} (h : Steady link b now past) (silent : a.Only Step.IsSilent)
    (rest : ∀ v past, Steady link b now past →
      (f v).Ensures ⟨given, MayShow link b⟩ post past) :
    (a >>= f).Ensures ⟨given, MayShow link b⟩ post past :=
  silent.then h (fun _ e silent kept => ⟨kept.may e, kept.silent silent⟩) rest

/-! ## Cycles -/

theorem ensureConnected_shows {p : Poller α} (h : Steady link b p.backoff past) :
    (ensureConnected c link p).Ensures ⟨given, MayShow link b⟩
      (fun past _ => Steady link b p.backoff past) past := by
  refine h.after (.ask trivial) fun _ past h => ?_
  refine ensures_ask_bind.mpr fun up _ => ⟨h.may _, ?_⟩
  cases up with
  | true =>
    have h := h.silent (e := ⟨.isConnected link, true⟩) trivial
    refine h.after (.ask trivial) fun _ past h => ?_
    exact h
  | false =>
    have h := h.silent (e := ⟨.isConnected link, false⟩) trivial
    refine ensures_ask_bind.mpr fun _ _ => ⟨h.may _, ?_⟩
    -- From here on the loop shows that it is connecting, whether it backs off or not.
    have h := h.setState .connecting fun _ =>
      .inr ⟨shown_setState .., FoundDown.snoc ⟨past, [], rfl, by simp⟩ rfl⟩
    refine h.after (.ask trivial) fun started past h => ?_
    refine h.after (.ask trivial) fun result past h => ?_
    refine h.after (.ask trivial) fun _ past h => ?_
    split
    · split
      next steady =>
        refine ensures_ask_bind.mpr fun _ _ => ⟨h.may _, ?_⟩
        -- This one is shown outside the span only.
        refine h.setState .polling fun backing => ?_
        simp [backing] at steady
      next => exact h
    · exact h
    · refine h.after (.ask trivial) fun ended past h => ?_
      refine h.after (.ask trivial) fun time past h => ?_
      refine h.after (.ask trivial) fun _ past h => ?_
      exact h

theorem readPlan_shows {p : Poller α} (plan : Plan) (h : Steady link b p.backoff past) :
    (readPlan c link p plan).Ensures ⟨given, MayShow link b⟩
      (fun past _ => Steady link b p.backoff past) past := by
  unfold readPlan
  split
  · exact h
  · refine (ensures_bind _ _).mpr ((ensureConnected_shows h).mono fun past up h => ?_)
    cases up with
    | true =>
      exact (readBatches_isReading.mono fun _ => Step.IsReading.isSilent).ensures h
        fun _ e silent kept => ⟨kept.may e, kept.silent silent⟩
    | false => exact h

/-- At the end of a cycle the next state is shown before the cycle is reported. -/
theorem Steady.finish (h : Steady link b now past) (made : Poller α × CycleReport)
    (ended : now.onCycle made.2.outcome = made.1.backoff) {state : ChannelState}
    (standing : state = if made.1.backoff.isBackingOff then .backoff else .polling) :
    (do
      ask (.setState link state)
      ask (.report link made.2)
      return made : Activity (Poller α × CycleReport)).Ensures ⟨given, MayShow link b⟩
      (fun past made => Steady link b made.1.backoff past) past := by
  refine ensures_ask_bind.mpr fun _ _ => ⟨h.may _, ensures_ask_bind.mpr fun _ _ => ?_⟩
  have reported : backoffAfter link b (past ++ [⟨.setState link state, ()⟩] ++
      [⟨.report link made.2, ()⟩]) = made.1.backoff := by
    rw [backoffAfter_report, backoffAfter_of_reportOf? rfl, h.backoff, ended]
  have next : shown link (past ++ [⟨.setState link state, ()⟩]) = state := shown_setState ..
  cases backing : made.1.backoff.isBackingOff with
  | true =>
    rw [backing, if_pos rfl] at standing
    have rejects : (shown link (past ++ [⟨.setState link state, ()⟩])).rejectsCommands = true := by
      rw [next, standing]
      rfl
    refine ⟨fun _ => .inl (.inl rejects), reported, fun _ => .inl ?_⟩
    rw [shown_of_stateOf? rfl]
    exact rejects
  | false =>
    rw [backing, if_neg Bool.false_ne_true] at standing
    refine ⟨fun _ => .inr ⟨next.trans standing, ⟨made.2, rfl⟩, ?_⟩, reported, fun still => ?_⟩
    · exact (congrArg CycleBackoff.isBackingOff reported).trans backing
    · rw [backing] at still
      cases still

variable [DelayNumber α]

theorem cycle_shows {p : Poller α} (h : Steady link b p.backoff past) :
    (cycle c link p).Ensures ⟨given, MayShow link b⟩
      (fun past made => Steady link b made.1.backoff past) past := by
  refine h.after (.ask trivial) fun plan past h => ?_
  refine h.after (.ask trivial) fun started past h => ?_
  refine (ensures_bind _ _).mpr ((readPlan_shows plan h).mono fun past tally h => ?_)
  refine h.after (.ask trivial) fun _ past h => ?_
  refine h.after (.ask trivial) fun ended past h => ?_
  exact h.finish ⟨⟨_, _⟩, _⟩ rfl rfl

theorem loop_shows (fuel : Nat) {p : Poller α} (h : Steady link b p.backoff past) :
    (loop c link fuel p).Ensures ⟨given, MayShow link b⟩
      (fun past p => Steady link b p.backoff past) past := by
  induction fuel generalizing p past with
  | zero => exact h
  | succ fuel ih =>
    refine h.after (.ask trivial) fun cancelled past h => ?_
    cases cancelled with
    | true => exact h
    | false =>
      refine h.after (.ask trivial) fun started past h => ?_
      refine (ensures_bind _ _).mpr ((cycle_shows h).mono fun past made h => ?_)
      refine h.after (.ask trivial) fun ended past h => ?_
      cases ended with
      | true => exact h
      | false => exact ih h

theorem run_shows (fuel : Nat) {p : Poller α} (fresh : p.backoff.isBackingOff = false) :
    (run c link fuel p).Ensures ⟨given, MayShow link p.backoff⟩ (fun _ _ => True) [] := by
  have start : Steady link p.backoff p.backoff [] := by
    refine ⟨rfl, fun backing => ?_⟩
    rw [fresh] at backing
    cases backing
  refine (ensures_bind _ _).mpr ((loop_shows fuel start).mono fun past ended h => ?_)
  exact ensures_ask_bind.mpr fun _ _ => ⟨h.may _, trivial⟩

/-- While a loop backs off, commands are refused at each moment but two: while the link is made
again, up to the end of that cycle, and right before the report that ends the span. -/
theorem shown_while_backingOff {fuel : Nat} {multiplier : α} {e : Event} {rest : List Event}
    {left : Activity (Poller α)}
    (run : (run c link fuel (.ofChannel c multiplier)).Performs (past ++ e :: rest) left)
    (backing : (backoffAfter link (Poller.ofChannel c multiplier).backoff past).isBackingOff =
      true) :
    ((shown link past).rejectsCommands = true ∧
        ∀ (command : Command) (h : ChannelHandle) (events : List Event) (status : CommandStatus),
          command.dispatch.Performs
              (⟨.find command.channel, some h⟩ :: ⟨.state h.link, shown link past⟩ :: events)
              (.done status) →
            events = [] ∧ ∃ cause, status = .failed cause) ∨
      (shown link past = .connecting ∧ FoundDown link past) ∨
      (shown link past = .polling ∧ (∃ r, e = ⟨.report link r, ()⟩) ∧
        (backoffAfter link (Poller.ofChannel c multiplier).backoff
          (past ++ [e])).isBackingOff = false) := by
  have fresh : (Poller.ofChannel c multiplier).backoff.isBackingOff = false := rfl
  have ensured : (Poll.run c link fuel (.ofChannel c multiplier)).Ensures
      ⟨fun _ => True, MayShow link (Poller.ofChannel c multiplier).backoff⟩ (fun _ _ => True) [] :=
    run_shows fuel fresh
  rcases run.may ensured (fun _ _ => trivial) backing with (rejects | withheld) | ending
  · exact .inl ⟨rejects, fun _ _ _ _ => Command.fails_of_rejectsCommands rejects⟩
  · exact .inr (.inl withheld)
  · exact .inr (.inr ending)

/-! ## A command in between -/

/-- A channel whose device breaks the link at each read. -/
def flaky : Channel :=
  { id := 7, name := "flaky", medium := .tcp "127.0.0.1" 502
    points := [{ id := 1, address := 0, category := .adjustment, type := .uint16 }] }

/-- The link is made at each attempt, and takes writes. -/
def flakyAnswer : (s : Step) → s.Answer
  | .read .. => .error (.connection "closed by peer")
  | .plan _ => { batches := groupPoints flaky.limits flaky.points }
  | .find _ => some ⟨flaky, 0⟩
  | .state _ => .connecting
  | s => (inferInstance : Inhabited s.Answer).default

/-- What a poll loop does in two cycles, all of whose reads fail. -/
def flakyTrace : List Event :=
  ((run flaky 0 2 (.ofChannel flaky (.ofNat 2 : Binary64))).trace flakyAnswer).1

/-- The backoff that the loop begins with. -/
def flakyBackoff : CycleBackoff Binary64 := (Poller.ofChannel flaky (.ofNat 2)).backoff

/-- What a command does that comes meanwhile. -/
def flakyCommand : List Event × CommandStatus :=
  (Command.dispatch ⟨7, 1, .ofNat 5, "set"⟩).trace flakyAnswer

/-- The cut stands in the second cycle, once the link is made again. -/
theorem flaky_performs : ∃ left,
    (run flaky 0 2 (.ofChannel flaky (.ofNat 2 : Binary64))).Performs
      (flakyTrace.take 44 ++ ⟨.isCancelled 0, false⟩ :: flakyTrace.drop 45) left :=
  ⟨_, Activity.performs_trace flakyAnswer _⟩

/-- The link is made again while the loop backs off, and a command that comes then is carried
out. -/
theorem commanded_while_backingOff :
    ∃ past e rest left,
      (run flaky 0 2 (.ofChannel flaky (.ofNat 2 : Binary64))).Performs (past ++ e :: rest) left ∧
        (backoffAfter 0 flakyBackoff past).isBackingOff = true ∧
        (shown 0 past).rejectsCommands = false ∧
        ∃ command events p words, (Command.dispatch command).Performs
            (⟨.find 7, some ⟨flaky, 0⟩⟩ :: ⟨.state 0, shown 0 past⟩ :: events)
            (.done .acknowledged) ∧ ⟨.write 0 p words, .ok ()⟩ ∈ events := by
  obtain ⟨left, run⟩ := flaky_performs
  have standing : shown 0 (flakyTrace.take 44) = .connecting := by decide +kernel
  refine ⟨_, _, _, left, run, by decide +kernel, ?_, ?_⟩
  · rw [standing]
    rfl
  · rw [standing]
    refine ⟨⟨7, 1, .ofNat 5, "set"⟩, flakyCommand.1.drop 2, flaky.points[0], [5], ?_, ?_⟩
    · exact Activity.performs_trace flakyAnswer _
    · exact List.mem_of_getElem? (i := 4) rfl

/-- The link was found down before that moment. -/
theorem flaky_shown_while_backingOff :
    ∃ past e rest left,
      (run flaky 0 2 (.ofChannel flaky (.ofNat 2 : Binary64))).Performs (past ++ e :: rest) left ∧
        (backoffAfter 0 flakyBackoff past).isBackingOff = true ∧
        shown 0 past = .connecting ∧ FoundDown 0 past := by
  obtain ⟨left, run⟩ := flaky_performs
  have backing : (backoffAfter 0 flakyBackoff (flakyTrace.take 44)).isBackingOff = true := by
    decide +kernel
  have standing : shown 0 (flakyTrace.take 44) = .connecting := by decide +kernel
  refine ⟨_, _, _, left, run, backing, standing, ?_⟩
  rcases shown_while_backingOff run backing with ⟨rejects, -⟩ | ⟨-, down⟩ | ⟨polling, -⟩
  · rw [standing] at rejects
    cases rejects
  · exact down
  · rw [standing] at polling
    cases polling

end Poll

end Fieldbus
