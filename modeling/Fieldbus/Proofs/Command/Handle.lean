import Fieldbus.Proofs.Command.Signs

/-!
# What an executor does under a handle

An executor looks a channel up once for each command, and holds on to what it found.  Between that
and the next look-up it writes at most once and publishes at most once, over the link that it found
and for the channel that it found (`Command.serve_bound`).

So a write or a publication tells when the executor looked its channel up, however long ago that
was (`Command.Bound`).
-/

namespace Fieldbus

/-- Whether a step neither looks a channel up, nor writes, nor publishes, nor takes a command. -/
def Step.isMinor : Step → Bool
  | .find _ | .write .. | .publish _ | .receive | .closeQueue => false
  | _ => true

/-- Whether a step may stand between a look-up and the publication that follows it. -/
def Step.isWithin : Step → Bool
  | .find _ | .publish _ | .receive | .closeQueue => false
  | _ => true

theorem Step.isWithin_of_isMinor {s : Step} (minor : s.isMinor = true) : s.isWithin = true := by
  cases s with
  | find _ | publish _ | receive | closeQueue => cases minor
  | _ => rfl

namespace Command

open Activity (Only Ensures ensures_bind ensures_ask_bind ask)

/-- The past ends with this look-up and minor steps. -/
def Holding (h : ChannelHandle) (earlier : List Event) (id : UInt16) (past : List Event) : Prop :=
  ∃ prepared, past = earlier ++ ⟨.find id, some h⟩ :: prepared ∧
    ∀ e ∈ prepared, e.step.isMinor = true

/-- The past ends with this look-up, minor steps, a write over the link that was found, and minor
steps. -/
def HoldingWritten (h : ChannelHandle) (p : Point) (words : List UInt16)
    (result : Except Fault Unit) (earlier : List Event) (id : UInt16) (past : List Event) : Prop :=
  ∃ prepared reported, past = earlier ++
      ⟨.find id, some h⟩ :: (prepared ++ ⟨.write h.link p words, result⟩ :: reported) ∧
    (∀ e ∈ prepared, e.step.isMinor = true) ∧ ∀ e ∈ reported, e.step.isMinor = true

/-- A write goes over the link that was found last.  A publication acknowledges a write over it,
for the channel that was found last. -/
def Bound (past : List Event) (e : Event) : Prop :=
  match e.step with
  | .write link _ _ => ∃ h earlier id, Holding h earlier id past ∧ h.link = link
  | .publish writes =>
    ∃ (h : ChannelHandle) (p : Point) (words : List UInt16) (commanded : Binary64),
      (∃ earlier id, HoldingWritten h p words (.ok ()) earlier id past) ∧
        writes = [ackWrite h.channel.id p (p.acknowledged words commanded)]
  | _ => True

/-- The executor has found a channel for a command, and has not published anything since. -/
def UnderWay (id : UInt16) (past : List Event) : Prop :=
  ∃ h earlier begun, past = earlier ++ ⟨.find id, some h⟩ :: begun ∧
    ∀ e ∈ begun, e.step.isWithin = true

variable {given : Event → Prop}

theorem bound_of_isMinor {past : List Event} {e : Event} (minor : e.step.isMinor = true) :
    Bound past e := by
  obtain ⟨step, answer⟩ := e
  cases step with
  | write _ _ _ | publish _ => cases minor
  | _ => trivial

/-- Minor steps leave the executor with what it found. -/
theorem Holding.then {β γ : Type} {a : Activity β} {f : β → Activity γ} {h : ChannelHandle}
    {earlier past : List Event} {id : UInt16} (holding : Holding h earlier id past)
    (minor : a.Only fun s => s.isMinor = true)
    (rest : ∀ v past, Holding h earlier id past →
      (f v).Ensures ⟨given, Bound⟩ (fun _ _ => True) past) :
    (a >>= f).Ensures ⟨given, Bound⟩ (fun _ _ => True) past := by
  refine minor.then holding (fun past e minor kept => ⟨bound_of_isMinor minor, ?_⟩) rest
  obtain ⟨prepared, rfl, quiet⟩ := kept
  refine ⟨prepared ++ [e], by simp, fun x hx => ?_⟩
  rcases List.mem_append.mp hx with hx | hx
  · exact quiet x hx
  · cases List.mem_singleton.mp hx
    exact minor

theorem HoldingWritten.then {β γ : Type} {a : Activity β} {f : β → Activity γ} {h : ChannelHandle}
    {p : Point} {words : List UInt16} {result : Except Fault Unit} {earlier past : List Event}
    {id : UInt16} (holding : HoldingWritten h p words result earlier id past)
    (minor : a.Only fun s => s.isMinor = true)
    (rest : ∀ v past, HoldingWritten h p words result earlier id past →
      (f v).Ensures ⟨given, Bound⟩ (fun _ _ => True) past) :
    (a >>= f).Ensures ⟨given, Bound⟩ (fun _ _ => True) past := by
  refine minor.then holding (fun past e minor kept => ⟨bound_of_isMinor minor, ?_⟩) rest
  obtain ⟨prepared, reported, rfl, before, quiet⟩ := kept
  refine ⟨prepared, reported ++ [e], by simp, before, fun x hx => ?_⟩
  rcases List.mem_append.mp hx with hx | hx
  · exact quiet x hx
  · cases List.mem_singleton.mp hx
    exact minor

theorem free_of_minor {β : Type} {a : Activity β} {past : List Event}
    (minor : a.Only fun s => s.isMinor = true) :
    a.Ensures ⟨given, Bound⟩ (fun _ _ => True) past :=
  minor.ensures trivial fun _ _ minor _ => ⟨bound_of_isMinor minor, trivial⟩

theorem report_minor (id : String) (status : CommandStatus) :
    (report id status).Only fun s => s.isMinor = true :=
  report_keeps (P := fun s => s.isMinor = true) rfl (fun _ => rfl) (fun _ => rfl) id status

theorem send_bound (c : Command) {h : ChannelHandle} (p : Point) (words : List UInt16)
    {earlier past : List Event} {id : UInt16} (holding : Holding h earlier id past) :
    (c.send h p words).Ensures ⟨given, Bound⟩ (fun _ _ => True) past := by
  refine holding.then (report_minor ..) fun _ _ holding => ?_
  refine holding.then (.ask rfl) fun started _ holding => ?_
  refine holding.then (.ask rfl) fun _ past holding => ?_
  refine ensures_ask_bind.mpr fun result _ => ⟨⟨h, earlier, id, holding, rfl⟩, ?_⟩
  have written : HoldingWritten h p words result earlier id
      (past ++ [⟨.write h.link p words, result⟩]) := by
    obtain ⟨prepared, rfl, quiet⟩ := holding
    exact ⟨prepared, [], by simp, quiet, by simp⟩
  have captured : (some <$> ask (.frames h.link)).Only fun s => s.isMinor = true :=
    .bind (.ask rfl) fun _ => trivial
  have skipped : (pure none : Activity (Option Log.Frames)).Only fun s => s.isMinor = true := trivial
  dsimp only
  split
  all_goals
    refine written.then (by assumption) fun frames _ written => ?_
    refine written.then (.ask rfl) fun _ _ written => ?_
    refine written.then (.ask rfl) fun ended _ written => ?_
    refine written.then (.ask rfl) fun time _ written => ?_
    refine written.then (.ask rfl) fun _ past written => ?_
    cases result with
    | error fault => trivial
    | ok _ =>
      refine ensures_ask_bind.mpr fun _ _ => ⟨?_, trivial⟩
      exact ⟨h, p, words, c.value, ⟨earlier, id, written⟩, rfl⟩

theorem execute_bound (c : Command) (past : List Event) :
    c.execute.Ensures ⟨given, Bound⟩ (fun _ _ => True) past := by
  have reporting (status : CommandStatus) (past : List Event) :
      (report c.id status >>= fun _ => pure status).Ensures ⟨given, Bound⟩ (fun _ _ => True) past :=
    free_of_minor (.bind (report_minor ..) fun _ => trivial)
  refine (ensures_bind _ _).mpr ((?_ : Ensures _ (fun _ _ => True) _ _).mono
    fun past status _ => reporting status past)
  refine ensures_ask_bind.mpr fun found _ => ⟨trivial, ?_⟩
  cases found with
  | none => trivial
  | some h =>
    have holding : Holding h past c.channel (past ++ [⟨.find c.channel, some h⟩]) :=
      ⟨[], rfl, by simp⟩
    refine holding.then (.ask rfl) fun state past holding => ?_
    cases c.aim h.channel state with
    | error cause => trivial
    | ok target => exact send_bound c target.1 target.2 holding

/-- An executor writes and publishes under the handle that it found last, once each. -/
theorem serve_bound (fuel : Nat) (past : List Event) :
    (serve fuel).Ensures ⟨given, Bound⟩ (fun _ _ => True) past := by
  have refusing (left : List Command) : (refuseAll left).Only fun s => s.isMinor = true :=
    refuseAll_keeps (P := fun s => s.isMinor = true) rfl (fun _ => rfl) (fun _ => rfl) left
  have retiring (past : List Event) : retire.Ensures ⟨given, Bound⟩ (fun _ _ => True) past :=
    ensures_ask_bind.mpr fun left _ => ⟨trivial, free_of_minor (refusing left)⟩
  induction fuel generalizing past with
  | zero => exact retiring past
  | succ fuel ih =>
    refine (ensures_bind _ _).mpr ((?_ : Ensures _ (fun _ _ => True) _ _).mono
      fun past more _ => ?_)
    · refine ensures_ask_bind.mpr fun next _ => ⟨trivial, ?_⟩
      cases next with
      | none => trivial
      | some c => exact (ensures_bind _ _).mpr ((execute_bound c _).mono fun _ _ _ => trivial)
    · cases more with
      | true => exact ih past
      | false => exact retiring past

end Command

end Fieldbus
