import Mathlib.Algebra.GroupWithZero.Nat
import Fieldbus.Proofs.Command.Board

/-!
# Following among set calls

Somebody who follows a command subscribes, looks at the board, and then listens.  Others set
outcomes meanwhile, each of them by putting it down and announcing it, and may prune the board.

The end of the followed command may come before the subscription, before the look, while the
follower has fallen behind, or after.  Nothing of it is lost, since two things are kept
(`Tracks`).  What has been announced has ended on the board, so a look finds it.  And none of the
announcements that a listener has left behind is of its command (`Stage.Stands`).

So once the end of its command is announced, a follower who goes on as far as it can has returned
it (`await_heeds`).  Between putting the end down and announcing it there is a moment in which it
is on the board, and the follower has to wait nevertheless (`await_rests_before_announcement`).  The
announcement is then the next step of whoever has put it down.
-/

namespace Fieldbus

open Ensemble (Run)

/-! ## Set calls -/

/-- The outcome that has to be announced behind a step. -/
def Step.due : Step → Option Outcome
  | .post outcome => if outcome.status.isTerminal then some outcome else none
  | _ => none

def Step.announced? : Step → Option Outcome
  | .announce outcome => some outcome
  | _ => none

namespace Activity

variable {α β : Type}

/-- Each end of a command that is put on the board is announced next, and nothing else is.  An
announcement may be due from before. -/
def Announces (due : Option Outcome) : Activity α → Prop
  | .done _ => due = none
  | .step s next => s.announced? = due ∧ ∀ answer, (next answer).Announces s.due

theorem Announces.bind {due : Option Outcome} {a : Activity α} {f : α → Activity β}
    (first : a.Announces due) (second : ∀ v, (f v).Announces none) : (a >>= f).Announces due := by
  induction a generalizing due with
  | done v =>
    obtain rfl : due = none := first
    exact second v
  | step s next ih => exact ⟨first.1, fun answer => ih answer (first.2 answer)⟩

end Activity

/-- A call at the board. -/
inductive BoardCall where
  | set (command : String) (status : CommandStatus)
  | prune (cutoff : Instant)

namespace Command

/-- Makes calls at the board one after another. -/
def callAll : List BoardCall → Activity Unit
  | [] => return ()
  | .set command status :: rest => do
    report command status
    callAll rest
  | .prune cutoff :: rest => do
    let _ ← prune cutoff
    callAll rest

theorem report_announces (command : String) (status : CommandStatus) :
    (report command status).Announces none := by
  refine ⟨rfl, fun time => ⟨rfl, fun _ => ?_⟩⟩
  show Activity.Announces (if status.isTerminal then _ else none) (if _ then _ else _)
  split
  · exact ⟨rfl, fun _ => rfl⟩
  · rfl

theorem prune_announces (cutoff : Instant) : (prune cutoff).Announces none :=
  ⟨rfl, fun _ => ⟨rfl, fun _ => ⟨rfl, fun _ => rfl⟩⟩⟩

theorem callAll_announces (calls : List BoardCall) : (callAll calls).Announces none := by
  induction calls with
  | nil => rfl
  | cons call rest ih =>
    cases call with
    | set command status => exact (report_announces command status).bind fun _ => ih
    | prune cutoff => exact (prune_announces cutoff).bind fun _ => ih

end Command

/-! ## Ends on the board -/

namespace Board

/-- The end of a command is on the board. -/
def HasEnded (b : Board) (id : String) : Prop :=
  ∃ outcome, b.get? id = some outcome ∧ outcome.status.isTerminal = true

/-- The end of a command has been announced. -/
def HasAnnounced (b : Board) (id : String) : Prop := ∃ outcome ∈ b.announced, outcome.command = id

/-- Once a command has ended on the board, it stays so: it is not set back, and its outcome is not
taken off. -/
def Retains (id : String) (b : Board) : List Event → Prop
  | [] => True
  | e :: rest => (b.HasEnded id → (b.next e).HasEnded id) ∧ (b.next e).Retains id rest

instance (b : Board) (id : String) : Decidable (b.HasEnded id) :=
  decidable_of_iff (((b.get? id).filter fun o => o.status.isTerminal).isSome = true) <| by
    simp only [Option.isSome_iff_exists, Option.filter_eq_some_iff, HasEnded]

instance Retains.decidable (id : String) (b : Board) : (events : List Event) →
    Decidable (b.Retains id events)
  | [] => .isTrue trivial
  | e :: rest =>
    have := Retains.decidable id (b.next e) rest
    inferInstanceAs (Decidable (_ ∧ _))

/-- Whether an activity has taken all steps for which it need not wait. -/
def Rests {α : Type} (b : Board) : Activity α → Prop
  | .done _ => True
  | .step (.hear waiter) _ => b.hear waiter = .nothing
  | .step _ _ => False

instance (b : Board) {α : Type} (a : Activity α) : Decidable (b.Rests a) :=
  decidable_of_iff ((match a with
    | .done _ => true
    | .step (.hear waiter) _ => decide (b.hear waiter = .nothing)
    | .step _ _ => false) = true) <| by
    unfold Rests
    split <;> simp

variable {b : Board} {id : String}

theorem filter_get?_eq_some_iff {outcome : Outcome} :
    ((b.get? id).filter fun o => o.status.isTerminal) = some outcome ↔
      b.get? id = some outcome ∧ outcome.status.isTerminal = true :=
  Option.filter_eq_some_iff

theorem not_hasEnded (none : ((b.get? id).filter fun o => o.status.isTerminal) = none) :
    ¬ b.HasEnded id := by
  rintro ⟨outcome, found⟩
  rw [filter_get?_eq_some_iff.mpr found] at none
  cases none

/-! ## What the board tells -/

/-- An end of a command.  If it is the command that is followed, it is on the board. -/
structure IsEnd (id : String) (made : Outcome → Prop) (b : Board) (outcome : Outcome) : Prop where
  terminal : outcome.status.isTerminal = true
  made : made outcome
  own : outcome.command = id → b.HasEnded id

/-- What the board shows was set by somebody, and what is announced are ends. -/
structure Tells (id : String) (made : Outcome → Prop) (b : Board) : Prop where
  distinct : b.outcomes.keys.Nodup
  shown : ∀ key outcome, b.get? key = some outcome → outcome.command = key ∧ made outcome
  announced : ∀ outcome ∈ b.announced, b.IsEnd id made outcome

variable {made : Outcome → Prop} {e : Event}

theorem empty_tells : Tells id made {} := ⟨List.nodup_nil, nofun, nofun⟩

theorem Tells.hasEnded (h : b.Tells id made) (announced : b.HasAnnounced id) : b.HasEnded id :=
  have ⟨outcome, member, own⟩ := announced
  (h.announced outcome member).own own

theorem IsEnd.next {outcome : Outcome} (h : b.IsEnd id made outcome)
    (stays : b.HasEnded id → (b.next e).HasEnded id) : (b.next e).IsEnd id made outcome :=
  ⟨h.terminal, h.made, fun own => stays (h.own own)⟩

/-- What is due behind a step ends its command. -/
theorem isEnd_of_due {outcome : Outcome} (posts : ∀ o ∈ e.posted?, made o)
    (due : outcome ∈ e.step.due) : (b.next e).IsEnd id made outcome := by
  obtain ⟨step, answer⟩ := e
  cases step with
  | post own =>
    simp only [Step.due, Option.mem_def, Option.ite_none_right_eq_some, Option.some.injEq] at due
    obtain ⟨terminal, rfl⟩ := due
    exact ⟨terminal, posts own rfl, fun mine => ⟨own, by rw [Board.next, get?_put, if_pos mine],
      terminal⟩⟩
  | _ => cases due

theorem next_of_asksBoard (asks : e.step.asksBoard = true) : b.next e = b := by
  obtain ⟨step, answer⟩ := e
  cases step with
  | post _ | announce _ | discard _ => cases asks
  | _ => rfl

theorem announced_next (b : Board) (e : Event) :
    (b.next e).announced = b.announced ++ e.step.announced?.toList := by
  obtain ⟨step, answer⟩ := e
  cases step with
  | announce outcome => rfl
  | _ => exact (List.append_nil _).symm

/-- The end of a command comes onto the board with an outcome that is to be announced next. -/
theorem Tells.hasEnded_of_next (h : b.Tells id made) (ended : (b.next e).HasEnded id) :
    b.HasEnded id ∨ ∃ outcome ∈ e.step.due, outcome.command = id := by
  obtain ⟨found, there, terminal⟩ := ended
  obtain ⟨step, answer⟩ := e
  cases step with
  | post outcome =>
    rw [Board.next, get?_put] at there
    split at there
    next own =>
      obtain rfl := Option.some.inj there
      exact .inr ⟨outcome, if_pos terminal, own⟩
    next => exact .inl ⟨found, there, terminal⟩
  | discard cutoff =>
    rw [Board.next, get?_prune h.distinct] at there
    exact .inl ⟨found, (Option.filter_eq_some_iff.mp there).1, terminal⟩
  | _ => exact .inl ⟨found, there, terminal⟩

theorem Tells.next (h : b.Tells id made) (posts : ∀ outcome ∈ e.posted?, made outcome)
    (announces : ∀ outcome ∈ e.step.announced?, b.IsEnd id made outcome)
    (stays : b.HasEnded id → (b.next e).HasEnded id) : (b.next e).Tells id made := by
  refine ⟨?distinct, ?shown, ?announced⟩
  case announced =>
    intro outcome member
    rw [announced_next, List.mem_append, Option.mem_toList] at member
    rcases member with earlier | last
    · exact (h.announced outcome earlier).next stays
    · exact (announces outcome last).next stays
  case distinct =>
    obtain ⟨step, answer⟩ := e
    cases step with
    | post outcome => exact Table.nodup_keys_insert h.distinct _ _
    | discard cutoff => exact distinct_prune h.distinct cutoff
    | _ => exact h.distinct
  case shown =>
    intro key found there
    obtain ⟨step, answer⟩ := e
    cases step with
    | post outcome =>
      rw [Board.next, get?_put] at there
      split at there
      next own =>
        obtain rfl := Option.some.inj there
        exact ⟨own, posts outcome rfl⟩
      next => exact h.shown key found there
    | discard cutoff =>
      rw [Board.next, get?_prune h.distinct] at there
      exact h.shown key found (Option.filter_eq_some_iff.mp there).1
    | _ => exact h.shown key found there

/-! ## What a listener hears -/

/-- Where a listener stands among the announcements, and what it hears. -/
inductive Hears (b : Board) (w : Waiter) : Heard → Prop
  /-- It has heard everything. -/
  | nothing : w.position = b.announced.length → Hears b w .nothing
  | outcome {outcome : Outcome} :
    b.announced[w.position]? = some outcome →
    Hears b w (.outcome outcome { w with position := w.position + 1 })
  | lagged {position : Nat} :
    position ≤ b.announced.length → Hears b w (.lagged { w with position })

theorem hears {w : Waiter} (within : w.position ≤ b.announced.length) : b.Hears w (b.hear w) := by
  unfold hear
  split
  next => exact .lagged (Nat.sub_le ..)
  next =>
    split
    next outcome there => exact .outcome there
    next none => exact .nothing (Nat.le_antisymm within (List.getElem?_eq_none_iff.mp none))

end Board

/-! ## The course of a follower -/

/-- Where a follower stands. -/
inductive Stage where
  | starting
  /-- It has subscribed, or was told that announcements are lost, and looks at the board next. -/
  | looking (waiter : Board.Waiter)
  | listening (waiter : Board.Waiter)
  | through (value : Option Outcome)

namespace Stage

/-- What a follower does who may still listen a number of times. -/
def activity (id : String) (left : Nat) : Stage → Activity (Option Outcome)
  | starting => Command.await id left
  | looking waiter => do
    match (← Activity.ask (.lookUp id)).filter fun o => o.status.isTerminal with
    | some outcome => return some outcome
    | none => Command.listen left waiter
  | listening waiter => Command.listen left waiter
  | through value => return value

/-- What a follower knows where it stands. -/
def Stands (id : String) (made : Outcome → Prop) (b : Board) : Stage → Prop
  | starting => True
  | looking waiter => waiter.command = id ∧ waiter.position ≤ b.announced.length
  | listening waiter => waiter.command = id ∧ waiter.position ≤ b.announced.length ∧
      ∀ outcome ∈ b.announced.take waiter.position, outcome.command ≠ id
  | through value => ∃ outcome, value = some outcome ∧ outcome.command = id ∧
      outcome.status.isTerminal = true ∧ made outcome

/-- Announcements that come do not matter to where a follower stands. -/
theorem Stands.grown {id : String} {made : Outcome → Prop} {b b' : Board} {stage : Stage}
    (h : stage.Stands id made b) (more : List Outcome) (grown : b'.announced = b.announced ++ more) :
    stage.Stands id made b' := by
  have longer : b.announced.length ≤ b'.announced.length := by
    rw [grown, List.length_append]
    exact Nat.le_add_right ..
  cases stage with
  | starting => trivial
  | looking waiter => exact ⟨h.1, Nat.le_trans h.2 longer⟩
  | listening waiter =>
    refine ⟨h.1, Nat.le_trans h.2.1 longer, ?_⟩
    rw [grown, List.take_append_of_le_length h.2.1]
    exact h.2.2
  | through value => exact h

end Stage

/-- How often a step listens. -/
def Step.hearings : Step → Nat
  | .hear _ => 1
  | _ => 0

namespace Stage

variable {id : String} {made : Outcome → Prop} {b : Board} {stage : Stage} {left : Nat}
  {step : Step} {next : step.Answer → Activity (Option Outcome)}

/-- A look at the board ends the following, or nothing of the command has been announced. -/
theorem looked (tells : b.Tells id made) {waiter : Board.Waiter}
    (stands : (looking waiter).Stands id made b) :
    ∃ stage : Stage, (match (b.get? id).filter fun o => o.status.isTerminal with
        | some outcome => return some outcome
        | none => Command.listen left waiter) = stage.activity id left ∧ stage.Stands id made b := by
  cases seen : (b.get? id).filter fun o => o.status.isTerminal with
  | some outcome =>
    obtain ⟨there, terminal⟩ := Board.filter_get?_eq_some_iff.mp seen
    obtain ⟨own, known⟩ := tells.shown id outcome there
    exact ⟨.through (some outcome), rfl, outcome, rfl, own, terminal, known⟩
  | none =>
    refine ⟨.listening waiter, rfl, stands.1, stands.2, fun outcome member own => ?_⟩
    exact Board.not_hasEnded seen (tells.hasEnded ⟨outcome, List.mem_of_mem_take member, own⟩)

/-- What a listener hears ends the following, or is not of its command. -/
theorem heard (tells : b.Tells id made) {waiter : Board.Waiter}
    (stands : (listening waiter).Stands id made b)
    (ready : Command.listen left waiter = .step step next) :
    step = .hear waiter ∧ ∃ stage : Stage,
      next (b.answer step) = stage.activity id (left - 1) ∧ stage.Stands id made b := by
  obtain ⟨own, within, silent⟩ := stands
  cases left with
  | zero => cases ready
  | succ left =>
    cases ready
    refine ⟨rfl, ?_⟩
    have hears : b.Hears waiter (b.answer (.hear waiter)) := Board.hears within
    generalize b.answer (.hear waiter) = answer at hears
    cases hears with
    | nothing => exact ⟨.listening waiter, rfl, own, within, silent⟩
    | lagged within =>
      rw [← own]
      exact ⟨.looking _, rfl, rfl, within⟩
    | @outcome outcome there =>
      obtain ⟨before, same⟩ := List.getElem?_eq_some_iff.mp there
      have known := tells.announced outcome (List.mem_of_getElem? there)
      by_cases mine : outcome.command = waiter.command
      · exact ⟨.through (some outcome), if_pos mine, outcome, rfl, mine.trans own, known.terminal,
          known.made⟩
      · refine ⟨.listening _, if_neg mine, own, before, ?_⟩
        rw [List.take_add_one, there, List.forall_mem_append]
        exact ⟨silent, by simpa [own] using mine⟩

/-- A step of a follower asks the board, and leads to where it stands next. -/
theorem stands_next (tells : b.Tells id made) (stands : stage.Stands id made b)
    (ready : stage.activity id left = .step step next) :
    step.asksBoard = true ∧ ∃ stage' : Stage,
      next (b.answer step) = stage'.activity id (left - step.hearings) ∧
        stage'.Stands id made b := by
  cases stage with
  | starting =>
    cases ready
    exact ⟨rfl, .looking (b.subscribe id), rfl, rfl, Nat.le_refl _⟩
  | looking waiter =>
    cases ready
    exact ⟨rfl, looked tells stands⟩
  | listening waiter =>
    obtain ⟨rfl, onward⟩ := heard tells stands ready
    exact ⟨rfl, onward⟩
  | through value => cases ready

/-! ### Coming to an end -/

/-- What an activity does next is for the board to answer, and leads to an end of the command. -/
def Leads (id : String) (b : Board) (a : Activity (Option Outcome)) : Prop :=
  ∃ events outcome, a.Performs events (.done (some outcome)) ∧
    (∀ e ∈ events, e.step.asksBoard = true ∧ e.answer = b.answer e.step) ∧
    outcome.command = id ∧ outcome.status.isTerminal = true

theorem Leads.behind {s : Step} {next : s.Answer → Activity (Option Outcome)}
    (asks : s.asksBoard = true) (h : Leads id b (next (b.answer s))) :
    Leads id b (.step s next) := by
  obtain ⟨events, outcome, performs, answered, own⟩ := h
  exact ⟨⟨s, b.answer s⟩ :: events, outcome, .cons performs,
    List.forall_mem_cons.mpr ⟨⟨asks, rfl⟩, answered⟩, own⟩

theorem leads_done {outcome : Outcome} (own : outcome.command = id)
    (terminal : outcome.status.isTerminal = true) : Leads id b (.done (some outcome)) :=
  ⟨[], outcome, .nil, fun _ member => absurd member List.not_mem_nil, own, terminal⟩

/-- A look at the board finds what has ended. -/
theorem leads_looking (tells : b.Tells id made) (ended : b.HasEnded id) (waiter : Board.Waiter) :
    Leads id b ((looking waiter).activity id left) := by
  obtain ⟨outcome, there, terminal⟩ := ended
  have seen := Board.filter_get?_eq_some_iff.mpr ⟨there, terminal⟩
  refine .behind rfl ?_
  show Leads id b (match (b.get? id).filter fun o => o.status.isTerminal with
    | some outcome => return some outcome
    | none => Command.listen left waiter)
  rw [seen]
  exact leads_done (tells.shown id outcome there).1 terminal

/-- A listener comes to the announcement, or falls behind and looks at the board. -/
theorem leads_listening (tells : b.Tells id made) (announced : b.HasAnnounced id)
    {waiter : Board.Waiter} (stands : (listening waiter).Stands id made b)
    (enough : b.announced.length < left + waiter.position) :
    Leads id b ((listening waiter).activity id left) := by
  induction left generalizing waiter with
  | zero => exact absurd stands.2.1 (by omega)
  | succ left ih =>
    obtain ⟨own, within, silent⟩ := stands
    refine .behind rfl ?_
    have hears : b.Hears waiter (b.answer (.hear waiter)) := Board.hears within
    generalize b.answer (.hear waiter) = answer at hears
    cases hears with
    | nothing all =>
      obtain ⟨outcome, member, mine⟩ := announced
      rw [all, List.take_length] at silent
      exact absurd mine (silent outcome member)
    | lagged within =>
      have ended := tells.hasEnded announced
      subst own
      exact leads_looking tells ended _
    | @outcome outcome there =>
      obtain ⟨before, same⟩ := List.getElem?_eq_some_iff.mp there
      have known := tells.announced outcome (List.mem_of_getElem? there)
      show Leads id b (if outcome.command = waiter.command then return some outcome
        else Command.listen left { waiter with position := waiter.position + 1 })
      split
      next mine => exact leads_done (mine.trans own) known.terminal
      next foreign =>
        refine ih ⟨own, before, ?_⟩ (by dsimp only; omega)
        rw [List.take_add_one, there, List.forall_mem_append]
        exact ⟨silent, by simpa [own] using foreign⟩

/-- Wherever a follower stands, it comes to an end that has been announced. -/
theorem leads (tells : b.Tells id made) (announced : b.HasAnnounced id)
    (stands : stage.Stands id made b) (enough : b.announced.length < left) :
    Leads id b (stage.activity id left) := by
  have ended := tells.hasEnded announced
  cases stage with
  | starting => exact .behind rfl (leads_looking tells ended (b.subscribe id))
  | looking waiter => exact leads_looking tells ended waiter
  | listening waiter => exact leads_listening tells announced stands (Nat.lt_add_right _ enough)
  | through value =>
    obtain ⟨outcome, rfl, own, terminal, -⟩ := stands
    exact leads_done own terminal

/-- A follower that has to wait has heard every announcement, and none was of its command. -/
theorem not_hasAnnounced_of_rests (stands : stage.Stands id made b) (patient : 0 < left)
    (rests : b.Rests (stage.activity id left)) (waits : ∀ value, stage ≠ .through value) :
    ¬ b.HasAnnounced id := by
  cases stage with
  | starting | looking => exact rests.elim
  | listening waiter =>
    obtain ⟨-, within, silent⟩ := stands
    obtain ⟨left, rfl⟩ := Nat.exists_eq_add_of_lt patient
    have hears := Board.hears within
    rw [show b.hear waiter = .nothing from rests] at hears
    cases hears with
    | nothing all =>
      rw [all, List.take_length] at silent
      rintro ⟨outcome, member, mine⟩
      exact silent outcome member mine
  | through value => exact absurd rfl (waits value)

end Stage

/-! ## Side by side -/

/-- Those who are at the board: somebody who follows a command, and others. -/
inductive Visitor (κ : Type) where
  | follower
  | caller (k : κ)
deriving DecidableEq

/-- What the activity of a visitor ends with. -/
@[reducible] def Visitor.Value {κ : Type} : Visitor κ → Type
  | .follower => Option Outcome
  | .caller _ => Unit

section

variable {κ : Type} {id : String} {fuel left : Nat} {calls : κ → List BoardCall}
  {made : Outcome → Prop} {store : Store} {b : Board}
  {s s' : Ensemble (Visitor.Value (κ := κ))}

/-- A follower of a command and others who make calls at the board, before their first steps. -/
def following (id : String) (fuel : Nat) (calls : κ → List BoardCall) (store : Store) :
    Ensemble (Visitor.Value (κ := κ)) :=
  { tasks := fun
      | .follower => Command.await id fuel
      | .caller k => Command.callAll (calls k)
    store }

/-- Somebody has put the end of the command on the board and announces it next. -/
def Announcing (id : String) (s : Ensemble (Visitor.Value (κ := κ))) : Prop :=
  ∃ k outcome next, s.tasks (.caller k) = .step (.announce outcome) next ∧ outcome.command = id

theorem Activity.Announces.eq_step {α : Type} {a : Activity α} {outcome : Outcome}
    (h : a.Announces (some outcome)) : ∃ next, a = .step (.announce outcome) next := by
  cases a with
  | done v => cases h
  | step s next =>
    have announces : s.announced? = some outcome := h.1
    cases s with
    | announce own =>
      cases announces
      exact ⟨next, rfl⟩
    | _ => cases announces

/-- What is kept while a follower may still listen a number of times. -/
structure Tracks (id : String) (made : Outcome → Prop) (left : Nat) (b : Board)
    (s : Ensemble (Visitor.Value (κ := κ))) : Prop where
  tells : b.Tells id made
  callers : ∀ k, ∃ due, (s.tasks (.caller k)).Announces due ∧
    ∀ outcome ∈ due, b.IsEnd id made outcome
  ended : b.HasEnded id → b.HasAnnounced id ∨ Announcing id s
  follower : ∃ stage : Stage, s.tasks .follower = stage.activity id left ∧ stage.Stands id made b

theorem tracks_following : Tracks id made fuel {} (following id fuel calls store) where
  tells := Board.empty_tells
  callers k := ⟨none, Command.callAll_announces (calls k), nofun⟩
  ended := fun ⟨_, there, _⟩ => by cases there
  follower := ⟨.starting, rfl, trivial⟩

/-- How often a follower listens with an event. -/
def Visitor.hearings : Visitor κ × Event → Nat
  | (.follower, e) => e.step.hearings
  | (.caller _, _) => 0

/-- A step of the follower keeps track. -/
theorem Tracks.follow (h : Tracks id made left b s) {step : Step}
    {next : step.Answer → Activity (Option Outcome)} (ready : s.tasks .follower = .step step next)
    (moved : s'.tasks .follower = next (b.answer step))
    (others : ∀ k, s'.tasks (.caller k) = s.tasks (.caller k)) :
    Tracks id made (left - step.hearings) b s' := by
  obtain ⟨stage, standing, stands⟩ := h.follower
  obtain ⟨-, stage', onward, stands'⟩ := stage.stands_next h.tells stands (standing.symm.trans ready)
  refine ⟨h.tells, fun k => ?_, fun ended => ?_, stage', moved.trans onward, stands'⟩
  · rw [others]
    exact h.callers k
  · refine (h.ended ended).imp_right fun ⟨k, outcome, rest, next, mine⟩ => ?_
    exact ⟨k, outcome, rest, (others k).trans next, mine⟩

theorem Tracks.asksBoard (h : Tracks id made left b s) {step : Step}
    {next : step.Answer → Activity (Option Outcome)} (ready : s.tasks .follower = .step step next) :
    step.asksBoard = true := by
  obtain ⟨stage, standing, stands⟩ := h.follower
  exact (stage.stands_next h.tells stands (standing.symm.trans ready)).1

variable [DecidableEq κ]

/-- A step of somebody else keeps track. -/
theorem Tracks.call (h : Tracks id made left b s) {k : κ} {step : Step} {answer : step.Answer}
    {next : step.Answer → Activity Unit} (ready : s.tasks (.caller k) = .step step next)
    (moved : s'.tasks (.caller k) = next answer)
    (others : ∀ i, i ≠ .caller k → s'.tasks i = s.tasks i)
    (posts : ∀ outcome ∈ (⟨step, answer⟩ : Event).posted?, made outcome)
    (stays : b.HasEnded id → (b.next ⟨step, answer⟩).HasEnded id) :
    Tracks id made left (b.next ⟨step, answer⟩) s' := by
  obtain ⟨due, own, ends⟩ := h.callers k
  rw [ready] at own
  obtain ⟨announces, onward⟩ := own
  have grown := b.announced_next ⟨step, answer⟩
  refine ⟨h.tells.next posts (by rwa [announces]) stays, fun j => ?callers, fun ended => ?ended,
    ?follower⟩
  case callers =>
    by_cases same : j = k
    · subst same
      exact ⟨step.due, moved ▸ onward answer, fun outcome due => Board.isEnd_of_due posts due⟩
    · obtain ⟨due, own, ends⟩ := h.callers j
      rw [others _ fun equal => same (Visitor.caller.inj equal)]
      exact ⟨due, own, fun outcome member => (ends outcome member).next stays⟩
  case ended =>
    rcases h.tells.hasEnded_of_next ended with before | ⟨outcome, due, mine⟩
    · rcases h.ended before with ⟨outcome, there, mine⟩ | ⟨j, outcome, rest, next, mine⟩
      · exact .inl ⟨outcome, grown ▸ List.mem_append_left _ there, mine⟩
      · by_cases same : j = k
        · -- The announcement that was to come is this step.
          subst same
          cases ready.symm.trans next
          exact .inl ⟨outcome, grown ▸ List.mem_append_right _ (by simp [Step.announced?]), mine⟩
        · have still := others _ fun equal => same (Visitor.caller.inj equal)
          exact .inr ⟨j, outcome, rest, still.trans next, mine⟩
    · have announcing := onward answer
      rw [Option.mem_def.mp due] at announcing
      obtain ⟨rest, next⟩ := announcing.eq_step
      exact .inr ⟨k, outcome, rest, moved.trans next, mine⟩
  case follower =>
    obtain ⟨stage, standing, stands⟩ := h.follower
    exact ⟨stage, (others .follower nofun).trans standing, stands.grown _ grown⟩

/-- One step of a visitor keeps track. -/
theorem Tracks.take (h : Tracks id made left b s) {e : Visitor κ × Event}
    (take : Ensemble.Take (fun _ => True) s e s')
    (own : e.2.step.asksBoard = true → e.2.answer = b.answer e.2.step)
    (posts : ∀ outcome ∈ e.2.posted?, made outcome)
    (stays : b.HasEnded id → (b.next e.2).HasEnded id) :
    Tracks id made (left - Visitor.hearings e) (b.next e.2) s' := by
  cases take with
  | @mk i step next answer holder time ready free known =>
    cases i with
    | follower =>
      have asks := h.asksBoard ready
      obtain rfl : answer = b.answer step := own asks
      rw [Board.next_of_asksBoard asks]
      refine h.follow ready ?_ fun k => ?_
      · simp only [Function.update_self]
      · simp only [ne_eq, reduceCtorEq, not_false_eq_true, Function.update_of_ne]
    | caller k =>
      exact h.call ready (Function.update_self ..) (fun i other => Function.update_of_ne other ..)
        posts stays

/-- How often a follower listens in a history. -/
def listened (history : List (Visitor κ × Event)) : Nat := (history.map Visitor.hearings).sum

/-- A run keeps track. -/
theorem Tracks.run (h : Tracks id made left b s) {history : List (Visitor κ × Event)}
    (run : Run (fun _ => True) s history s') (serves : b.Serves (history.map Prod.snd))
    (posts : ∀ e ∈ history, ∀ outcome ∈ e.2.posted?, made outcome)
    (retains : b.Retains id (history.map Prod.snd)) :
    Tracks id made (left - listened history) (b.after (history.map Prod.snd)) s' := by
  induction run generalizing left b with
  | nil => exact h
  | @cons s _ _ e rest take _ ih =>
    have first := h.take take serves.1 (posts e List.mem_cons_self) retains.1
    have onward := ih first serves.2 (fun x member => posts x (List.mem_cons_of_mem e member))
      retains.2
    rw [listened, List.map_cons, List.sum_cons, ← Nat.sub_sub]
    exact onward

/-- What an activity does alone, it can do in company. -/
theorem Ensemble.exists_run_alone {ι : Type} [DecidableEq ι] {β : ι → Type} {s : Ensemble β} {i : ι}
    {a : Activity (β i)} {events : List Event} (performs : (s.tasks i).Performs events a)
    (answered : ∀ e ∈ events, e.step.asksBoard = true ∧ e.answer = b.answer e.step) :
    ∃ more s', Run (fun _ => True) s more s' ∧ b.Serves (more.map Prod.snd) ∧
      (∀ e ∈ more, e.1 = i) ∧ s'.tasks i = a := by
  generalize ready : s.tasks i = first at performs
  induction performs generalizing s with
  | nil => exact ⟨[], s, .nil, trivial, fun _ member => absurd member List.not_mem_nil, ready⟩
  | @cons step next answer events last performs ih =>
    obtain ⟨⟨asks, own⟩, rest⟩ := List.forall_mem_cons.mp answered
    have lockless (link : LinkId) : step ≠ .lock link := by
      rintro rfl
      cases asks
    obtain ⟨holder, free⟩ := holderAfter_of_not_lock s.holder i lockless
    let s₁ : Ensemble β :=
      { tasks := Function.update s.tasks i (next answer), holder
        store := storeAfter s.store 0 step }
    have moved : s₁.tasks i = next answer := Function.update_self ..
    obtain ⟨more, s', run, serves, alone, through⟩ := ih rest moved
    refine ⟨(i, ⟨step, answer⟩) :: more, s', .cons (.mk 0 ready free trivial) run,
      ⟨fun _ => own, ?_⟩, List.forall_mem_cons.mpr ⟨rfl, alone⟩, through⟩
    rwa [Board.next_of_asksBoard asks]

/-- The follower goes on to an end that has been announced. -/
theorem Tracks.exists_run_of_announced (h : Tracks id made left b s)
    (announced : b.HasAnnounced id) (enough : b.announced.length < left) :
    ∃ more s' outcome, Run (fun _ => True) s more s' ∧ b.Serves (more.map Prod.snd) ∧
      (∀ e ∈ more, e.1 = .follower) ∧ s'.tasks .follower = .done (some outcome) ∧
      outcome.command = id ∧ outcome.status.isTerminal = true := by
  obtain ⟨stage, standing, stands⟩ := h.follower
  obtain ⟨events, outcome, performs, answered, own⟩ := stage.leads h.tells announced stands enough
  rw [← standing] at performs
  obtain ⟨more, s', run, serves, alone, through⟩ := Ensemble.exists_run_alone performs answered
  exact ⟨more, s', outcome, run, serves, alone, through, own⟩

/-- Whoever has put the end of the command on the board goes on to announce it. -/
theorem Tracks.exists_take_of_announcing (h : Tracks id made left b s)
    (announcing : Announcing id s) :
    ∃ k outcome s', outcome.command = id ∧
      Ensemble.Take (fun _ => True) s (.caller k, ⟨.announce outcome, ()⟩) s' ∧
      Tracks id made left (b.next ⟨.announce outcome, ()⟩) s' := by
  obtain ⟨k, outcome, next, ready, mine⟩ := announcing
  have take : Ensemble.Take (fun _ => True) s (.caller k, ⟨.announce outcome, ()⟩) _ :=
    .mk 0 ready rfl trivial
  exact ⟨k, outcome, _, mine, take, h.take take nofun nofun fun ended => ended⟩

/-- What a follower is up to, when it is about a command in a history. -/
structure Heeds (id : String) (history : List (Visitor κ × Event)) (b : Board)
    (s : Ensemble (Visitor.Value (κ := κ))) : Prop where
  /-- It returns nothing but an end of the command that somebody has set. -/
  returned : ∀ value, s.tasks .follower = .done value → ∃ outcome, value = some outcome ∧
    outcome.command = id ∧ outcome.status.isTerminal = true ∧
    ∃ e ∈ history, e.2.posted? = some outcome
  /-- It need not wait for an end that is on the board and announced. -/
  rested : b.HasEnded id → b.HasAnnounced id → b.Rests (s.tasks .follower) →
    ∃ outcome, s.tasks .follower = .done (some outcome)
  /-- An end that is on the board and not announced is announced next. -/
  announcing : b.HasEnded id → ¬ b.HasAnnounced id → Announcing id s
  /-- It returns by steps of its own, behind that announcement. -/
  returns : b.HasEnded id → ∃ more s' outcome, Run (fun _ => True) s more s' ∧
    b.Serves (more.map Prod.snd) ∧
    (∀ e ∈ more, e.1 = .follower ∨ ∃ own, e.2.step = .announce own ∧ own.command = id) ∧
    s'.tasks .follower = .done (some outcome) ∧ outcome.command = id ∧
    outcome.status.isTerminal = true

theorem Tracks.heeds {history : List (Visitor κ × Event)}
    (h : Tracks id (fun o => ∃ e ∈ history, e.2.posted? = some o) left b s)
    (patient : b.announced.length + 1 < left) : Heeds id history b s where
  returned value through := by
    obtain ⟨stage, standing, stands⟩ := h.follower
    rw [through] at standing
    cases stage with
    | starting | looking => cases standing
    | listening waiter =>
      cases left with
      | zero => exact absurd patient (Nat.not_lt_zero _)
      | succ left => cases standing
    | through =>
      cases standing
      exact stands
  rested _ announced rests := by
    obtain ⟨stage, standing, stands⟩ := h.follower
    by_cases waits : ∀ value, stage ≠ .through value
    · rw [standing] at rests
      exact absurd announced (stage.not_hasAnnounced_of_rests stands (by omega) rests waits)
    · simp only [not_forall, not_not] at waits
      obtain ⟨value, rfl⟩ := waits
      obtain ⟨outcome, rfl, -⟩ := stands
      exact ⟨outcome, standing⟩
  announcing ended silent := (h.ended ended).resolve_left silent
  returns ended := by
    rcases h.ended ended with announced | announcing
    · obtain ⟨more, s', outcome, run, serves, alone, through⟩ :=
        h.exists_run_of_announced announced (by omega)
      exact ⟨more, s', outcome, run, serves, fun e member => .inl (alone e member), through⟩
    · obtain ⟨k, own, s₁, mine, take, h₁⟩ := h.exists_take_of_announcing announcing
      have grown : (b.next ⟨.announce own, ()⟩).announced = b.announced ++ [own] :=
        b.announced_next _
      obtain ⟨more, s', outcome, run, serves, alone, through⟩ := h₁.exists_run_of_announced
        ⟨own, grown ▸ List.mem_append_right _ List.mem_cons_self, mine⟩
        (by rwa [grown, List.length_append])
      exact ⟨_ :: more, s', outcome, .cons take run, ⟨nofun, serves⟩, List.forall_mem_cons.mpr
        ⟨.inr ⟨own, rfl, mine⟩, fun e member => .inl (alone e member)⟩, through⟩

/-- A follower misses no end of its command that has been announced, however its steps and those of
others fall together.  It may listen as often as it has, and once more for each announcement that
there is. -/
theorem await_heeds {history : List (Visitor κ × Event)}
    (run : Run (fun _ => True) (following id fuel calls store) history s)
    (serves : Board.Serves {} (history.map Prod.snd))
    (retains : Board.Retains id {} (history.map Prod.snd))
    (patient : listened history + (Board.after {} (history.map Prod.snd)).announced.length + 1
      < fuel) :
    Heeds id history (Board.after {} (history.map Prod.snd)) s := by
  have start : Tracks id (fun o => ∃ e ∈ history, e.2.posted? = some o) fuel {}
    (following id fuel calls store) := tracks_following
  have tracks := start.run run serves (fun e member outcome posts => ⟨e, member, posts⟩) retains
  exact tracks.heeds (by omega)

end

/-! ## Two ends -/

/-- A caller sets the ends of two commands, and somebody follows the second one. -/
def twoEnds : Ensemble (Visitor.Value (κ := Unit)) :=
  following "b" 8 (fun _ => [.set "a" .acknowledged, .set "b" .acknowledged]) {}

/-- The follower subscribes and looks at the board.  Then the caller puts down the first end and
announces it, and puts down the second end.  The follower listens until it has to wait. -/
def untilPut : List (Visitor Unit) :=
  [.follower, .follower] ++ List.replicate 5 (.caller ()) ++ [.follower, .follower]

/-- The caller announces the second end too, and the follower goes on. -/
def untilAnnounced : List (Visitor Unit) := untilPut ++ [.caller (), .follower]

/-- The follower of an end that is announced has returned it. -/
theorem await_heeds_announced :
    let attended := Ensemble.attend {} untilAnnounced twoEnds
    let board := Board.after {} (attended.1.map Prod.snd)
    Run (fun _ => True) twoEnds attended.1 attended.2 ∧
      Board.Serves {} (attended.1.map Prod.snd) ∧
      Board.Retains "b" {} (attended.1.map Prod.snd) ∧
      listened attended.1 + board.announced.length + 1 < 8 ∧ board.HasEnded "b" ∧
      board.HasAnnounced "b" ∧ ∃ outcome, attended.2.tasks .follower = .done (some outcome) := by
  intro attended board
  have run : Run (fun _ => True) twoEnds attended.1 attended.2 := Ensemble.run_attend ..
  have serves : Board.Serves {} (attended.1.map Prod.snd) := Ensemble.serves_attend ..
  have retains : Board.Retains "b" {} (attended.1.map Prod.snd) := by decide +kernel
  have patient : listened attended.1 + board.announced.length + 1 < 8 := by decide +kernel
  have ended : board.HasEnded "b" := by decide +kernel
  have announced : board.HasAnnounced "b" := by
    have found : (board.announced.any fun outcome => outcome.command == "b") = true := by
      decide +kernel
    obtain ⟨outcome, member, own⟩ := List.any_eq_true.mp found
    exact ⟨outcome, member, beq_iff_eq.mp own⟩
  have rests : board.Rests (attended.2.tasks .follower) := by decide +kernel
  exact ⟨run, serves, retains, patient, ended, announced,
    (await_heeds run serves retains patient).rested ended announced rests⟩

/-- The second end is on the board, and the follower has taken all steps for which it need not wait,
but it has not returned: the end is still to be announced. -/
theorem await_rests_before_announcement :
    let attended := Ensemble.attend {} untilPut twoEnds
    let board := Board.after {} (attended.1.map Prod.snd)
    Run (fun _ => True) twoEnds attended.1 attended.2 ∧
      Board.Serves {} (attended.1.map Prod.snd) ∧
      Board.Retains "b" {} (attended.1.map Prod.snd) ∧ board.HasEnded "b" ∧
      board.Rests (attended.2.tasks .follower) ∧
      ∀ value, attended.2.tasks .follower ≠ .done value := by
  intro attended board
  have waits : (attended.2.tasks .follower).isDone = false := by decide +kernel
  refine ⟨Ensemble.run_attend .., Ensemble.serves_attend .., by decide +kernel, by decide +kernel,
    by decide +kernel, fun value through => ?_⟩
  rw [through] at waits
  cases waits

end Fieldbus
