import Fieldbus.Command.Queue
import Fieldbus.Proofs.Activity.Trace

/-!
# What an executor publishes

Each publication of an executor acknowledges its last write, which succeeded and is acknowledged
once (`Command.serve_ensures`).  The invariant after a write is `Wrote`: since it, the executor
has taken only inner steps.
-/

namespace Fieldbus

/-- The event is a write over the link that put the value of the commanded one on the point. -/
def Event.Writes (link : LinkId) (p : Point) (value : Binary64) : Event → Prop
  | ⟨.write l target words, answer⟩ =>
    l = link ∧ target = p ∧ answer = .ok () ∧
      ∃ commanded, value = p.acknowledged words commanded
  | _ => False

/-- The channel takes commands over the link, under its own number. -/
def Registered (c : Channel) (link : LinkId) : Event → Prop
  | ⟨.find id, answer⟩ =>
    ∀ h : ChannelHandle, answer = some h → h.channel.id = id ∧ (id = c.id → h = ⟨c, link⟩)
  | _ => True

namespace Command

open Activity (Only Ensures ensures_bind ensures_ask_bind ask)

/-- The last step but inner ones was this write, with this result. -/
def Wrote (link : LinkId) (p : Point) (words : List UInt16) (result : Except Fault Unit)
    (past : List Event) : Prop :=
  ∃ before since, past = before ++ ⟨.write link p words, result⟩ :: since ∧
    ∀ e ∈ since, e.step.IsInner

/-- Whether an executor may do something after a past. -/
def May (c : Channel) (link : LinkId) (past : List Event) (e : Event) : Prop :=
  match e.step with
  | .publish writes =>
    ∃ (h : ChannelHandle) (p : Point) (words : List UInt16) (commanded : Binary64),
      writes = [ackWrite h.channel.id p (p.acknowledged words commanded)] ∧
        Wrote h.link p words (.ok ()) past ∧ (h.channel.id = c.id → h.link = link)
  | .plan _ | .forget _ => False
  | _ => True

variable {given : Event → Prop} {c : Channel} {link : LinkId}

theorem may_of_isInner {past : List Event} {e : Event} (inner : e.step.IsInner) :
    May c link past e := by
  obtain ⟨step, answer⟩ := e
  cases step with
  | publish _ | plan _ | forget _ => exact inner.elim
  | _ => trivial

theorem free {β : Type} {a : Activity β} {past : List Event} (inner : a.Only Step.IsInner) :
    a.Ensures ⟨given, May c link⟩ (fun _ _ => True) past :=
  inner.ensures trivial fun _ _ inner _ => ⟨may_of_isInner inner, trivial⟩

theorem free_bind {β γ : Type} {a : Activity β} {f : β → Activity γ}
    {post : List Event → γ → Prop} {past : List Event} (inner : a.Only Step.IsInner)
    (rest : ∀ v past, (f v).Ensures ⟨given, May c link⟩ post past) :
    (a >>= f).Ensures ⟨given, May c link⟩ post past :=
  (ensures_bind a past).mpr ((free inner).mono fun past v _ => rest v past)

theorem Wrote.after {β γ : Type} {a : Activity β} {f : β → Activity γ}
    {post : List Event → γ → Prop} {past : List Event} {target : LinkId} {p : Point}
    {words : List UInt16} {result : Except Fault Unit} (h : Wrote target p words result past)
    (inner : a.Only Step.IsInner)
    (rest : ∀ v past, Wrote target p words result past →
      (f v).Ensures ⟨given, May c link⟩ post past) :
    (a >>= f).Ensures ⟨given, May c link⟩ post past := by
  refine inner.then h (fun past e inner kept => ⟨may_of_isInner inner, ?_⟩) rest
  obtain ⟨before, since, rfl, quiet⟩ := kept
  refine ⟨before, since ++ [e], by simp, fun x hx => ?_⟩
  rcases List.mem_append.mp hx with hx | hx
  · exact quiet x hx
  · cases List.mem_singleton.mp hx
    exact inner

/-- A write with inner steps behind it was made after some time, or these steps were. -/
theorem Wrote.split {p : Point} {words : List UInt16} {result : Except Fault Unit}
    {earlier later : List Event} (h : Wrote link p words result (earlier ++ later)) :
    ⟨.write link p words, result⟩ ∈ later ∨ ∀ e ∈ later, e.step.IsInner := by
  obtain ⟨before, since, whole, quiet⟩ := h
  rcases Activity.cut_of_append_eq whole with ⟨rest, rfl⟩ | ⟨begun, rfl, rfl⟩
  · exact .inl (by simp)
  · exact .inr fun x hx => quiet x (List.mem_append_right _ hx)

section Reporting

variable {P : Step → Prop} (clock : P .clock) (post : ∀ outcome, P (.post outcome))
  (announce : ∀ outcome, P (.announce outcome))

include clock post announce

theorem report_keeps (id : String) (status : CommandStatus) : (report id status).Only P := by
  refine .ask_bind clock fun time => .ask_bind (post _) fun _ => ?_
  split
  · exact .ask (announce _)
  · trivial

theorem refuseAll_keeps (commands : List Command) : (refuseAll commands).Only P := by
  induction commands with
  | nil => trivial
  | cons command rest ih => exact .bind (report_keeps clock post announce ..) fun _ => ih

end Reporting

theorem report_only (id : String) (status : CommandStatus) :
    (report id status).Only Step.IsInner :=
  report_keeps trivial (fun _ => trivial) (fun _ => trivial) ..

theorem send_ensures (command : Command) {h : ChannelHandle} (p : Point) (words : List UInt16)
    (here : h.channel.id = c.id → h.link = link) (past : List Event) :
    (command.send h p words).Ensures ⟨given, May c link⟩ (fun _ _ => True) past := by
  refine free_bind (report_only ..) fun _ past => ?_
  refine free_bind (.ask trivial) fun started past => ?_
  refine free_bind (.ask trivial) fun _ past => ?_
  refine ensures_ask_bind.mpr fun result _ => ⟨trivial, ?_⟩
  have wrote : Wrote h.link p words result (past ++ [⟨.write h.link p words, result⟩]) :=
    ⟨past, [], rfl, by simp⟩
  have captured : (some <$> ask (.frames h.link)).Only Step.IsInner :=
    .bind (.ask trivial) fun _ => trivial
  have skipped : (pure none : Activity (Option Log.Frames)).Only Step.IsInner := trivial
  cases result with
  | error fault =>
    dsimp only
    split
    all_goals
      refine wrote.after (by assumption) fun frames past wrote => ?_
      refine free (.ask_bind trivial fun _ => .ask_bind trivial fun _ => ?_)
      exact .ask_bind trivial fun _ => .ask_bind trivial fun _ => trivial
  | ok _ =>
    dsimp only
    split
    all_goals
      refine wrote.after (by assumption) fun frames past wrote => ?_
      refine wrote.after (.ask trivial) fun _ past wrote => ?_
      refine wrote.after (.ask trivial) fun ended past wrote => ?_
      refine wrote.after (.ask trivial) fun time past wrote => ?_
      refine wrote.after (.ask trivial) fun _ past wrote => ?_
      refine ensures_ask_bind.mpr fun _ _ => ⟨?_, trivial⟩
      exact ⟨h, p, words, command.value, rfl, wrote, here⟩

theorem dispatch_ensures (command : Command) (past : List Event) :
    (dispatch command).Ensures ⟨Registered c link, May c link⟩ (fun _ _ => True) past := by
  refine ensures_ask_bind.mpr fun found known => ⟨trivial, ?_⟩
  cases found with
  | none => trivial
  | some h =>
    obtain ⟨own, unique⟩ := known h rfl
    refine free_bind (.ask trivial) fun state past => ?_
    cases command.aim h.channel state with
    | error cause => trivial
    | ok target =>
      refine send_ensures command target.1 target.2 (fun here => ?_) past
      rw [unique (own ▸ here)]

theorem execute_ensures (command : Command) (past : List Event) :
    (execute command).Ensures ⟨Registered c link, May c link⟩ (fun _ _ => True) past := by
  refine (ensures_bind _ _).mpr ((dispatch_ensures command past).mono fun past status _ => ?_)
  exact free (.bind (report_only ..) fun _ => trivial)

theorem refuseAll_only (commands : List Command) : (refuseAll commands).Only Step.IsInner :=
  refuseAll_keeps trivial (fun _ => trivial) (fun _ => trivial) ..

theorem retire_ensures (past : List Event) :
    retire.Ensures ⟨given, May c link⟩ (fun _ _ => True) past :=
  free (.ask_bind trivial fun left => refuseAll_only left)

theorem serveNext_ensures (past : List Event) :
    serveNext.Ensures ⟨Registered c link, May c link⟩ (fun _ _ => True) past := by
  refine ensures_ask_bind.mpr fun command _ => ⟨trivial, ?_⟩
  cases command with
  | none => trivial
  | some command =>
    exact (ensures_bind _ _).mpr ((execute_ensures command _).mono fun _ _ _ => trivial)

/-- An executor publishes acknowledgements of its last write only. -/
theorem serve_ensures (fuel : Nat) (past : List Event) :
    (serve fuel).Ensures ⟨Registered c link, May c link⟩ (fun _ _ => True) past := by
  induction fuel generalizing past with
  | zero => exact retire_ensures past
  | succ fuel ih =>
    refine (ensures_bind _ _).mpr ((serveNext_ensures past).mono fun past more _ => ?_)
    cases more with
    | true => exact ih past
    | false => exact retire_ensures past

end Command

end Fieldbus
