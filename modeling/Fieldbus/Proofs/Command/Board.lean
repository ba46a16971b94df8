import Fieldbus.Proofs.Activity.Interleaving
import Fieldbus.Proofs.Command.Queueing

/-!
# The board in a history

A history says what becomes of the board, and it is one that can be if each answer of the board is
the board's own (`Board.Serves`).  `Ensemble.attend` takes turns as scheduled and lets a board
answer, which gives such histories.

The board grows by the commands that are new to it (`Board.size_after`), and an outcome that nobody
sets stays (`Board.get?_after`).  Taking outcomes off the board shows at the ids of those that it
takes (`Board.get?_prune`).
-/

namespace Fieldbus

open Ensemble (Run)

/-! ## Answers -/

/-- Whether a step asks something of the board. -/
def Step.asksBoard : Step → Bool
  | .countOutcomes | .lookUp _ | .subscribe _ | .hear _ => true
  | _ => false

/-- The outcome that an event puts on the board. -/
def Event.posted? (e : Event) : Option Outcome :=
  match e.step with
  | .post outcome => some outcome
  | _ => none

/-- The time of an outcome is there just if the command has ended. -/
def Outcome.IsDated (o : Outcome) : Prop := o.completedAt.isSome = o.status.isTerminal

namespace Board

/-- What the board answers.  It leaves all other answers open. -/
def answer (b : Board) : (step : Step) → step.Answer
  | .countOutcomes => b.size
  | .lookUp command => b.get? command
  | .subscribe command => b.subscribe command
  | .hear waiter => b.hear waiter
  | _ => default

/-- The answers to what is asked of the board are the board's own. -/
def Serves (b : Board) : List Event → Prop
  | [] => True
  | e :: rest => (e.step.asksBoard = true → e.answer = b.answer e.step) ∧ (b.next e).Serves rest

theorem after_append (b : Board) (earlier later : List Event) :
    b.after (earlier ++ later) = (b.after earlier).after later := List.foldl_append

theorem serves_append {b : Board} {earlier later : List Event} :
    b.Serves (earlier ++ later) ↔ b.Serves earlier ∧ (b.after earlier).Serves later := by
  induction earlier generalizing b with
  | nil => exact (true_and _).symm.to_iff
  | cons e rest ih =>
    rw [List.cons_append, Serves, Serves, ih, and_assoc]
    rfl

/-- What is asked between events is answered by the board after those before it. -/
theorem Serves.answer_eq {b : Board} {earlier later : List Event} {e : Event}
    (h : b.Serves (earlier ++ e :: later)) (asks : e.step.asksBoard = true) :
    e.answer = (b.after earlier).answer e.step :=
  (serves_append.mp h).2.1 asks

/-! ## What is on the board -/

/-- The ids of commands are distinct, and the outcomes are dated. -/
structure Sound (b : Board) : Prop where
  distinct : b.outcomes.keys.Nodup
  dated : ∀ id outcome, b.get? id = some outcome → outcome.IsDated

theorem empty_sound : Sound {} := ⟨List.nodup_nil, fun _ _ found => by cases found⟩

theorem outcomeOf_isDated (command : String) (status : CommandStatus) (now : Instant) :
    (outcomeOf command status now).IsDated := by
  show (if _ then some now else none).isSome = _
  cases status <;> rfl

theorem get?_put (b : Board) (outcome : Outcome) (id : String) :
    (b.put outcome).get? id = if outcome.command = id then some outcome else b.get? id :=
  Table.get?_insert ..

theorem distinct_prune {b : Board} (distinct : b.outcomes.keys.Nodup) (cutoff : Instant) :
    (b.prune cutoff).outcomes.keys.Nodup :=
  distinct.sublist (List.filter_sublist.map Prod.fst)

/-- Pruning shows at the ids of the outcomes that it takes off, and at no others. -/
theorem get?_prune {b : Board} (distinct : b.outcomes.keys.Nodup) (cutoff : Instant) (id : String) :
    (b.prune cutoff).get? id = (b.get? id).filter (keeps cutoff) := by
  refine Option.ext fun outcome => ?_
  have there : (id, outcome) ∈ b.outcomes.entries ↔ b.get? id = some outcome :=
    Table.mem_entries_iff distinct
  have left : (id, outcome) ∈ (b.prune cutoff).outcomes.entries ↔
      (b.prune cutoff).get? id = some outcome :=
    Table.mem_entries_iff (distinct_prune distinct cutoff)
  rw [Option.filter_eq_some_iff, ← left, ← there]
  exact List.mem_filter

/-- The outcomes that are taken off the board. -/
def expired (b : Board) (cutoff : Instant) : List Outcome :=
  (b.outcomes.entries.map Prod.snd).filter fun outcome => !keeps cutoff outcome

theorem size_prune (b : Board) (cutoff : Instant) :
    (b.prune cutoff).size + (b.expired cutoff).length = b.size := by
  have parts := List.length_eq_length_filter_add
    (l := b.outcomes.entries) fun entry => keeps cutoff entry.2
  rw [expired, List.filter_map, List.length_map]
  exact parts.symm

/-- An outcome that is taken off is the end of a command before the cutoff. -/
theorem Sound.expired {b : Board} (sound : b.Sound) {cutoff : Instant} {outcome : Outcome}
    (member : outcome ∈ b.expired cutoff) :
    outcome.status.isTerminal = true ∧ ∃ time, outcome.completedAt = some time ∧ time < cutoff := by
  obtain ⟨inside, gone⟩ := List.mem_filter.mp member
  obtain ⟨⟨id, outcome⟩, there, rfl⟩ := List.mem_map.mp inside
  have dated := sound.dated id outcome ((Table.mem_entries_iff sound.distinct).mp there)
  dsimp only at gone ⊢
  cases completed : outcome.completedAt with
  | none => simp [keeps, completed] at gone
  | some time =>
    rw [Outcome.IsDated, completed] at dated
    exact ⟨dated.symm, time, rfl, by simpa [keeps, completed] using gone⟩

theorem Sound.next {b : Board} (sound : b.Sound) {e : Event}
    (dated : ∀ outcome ∈ e.posted?, outcome.IsDated) : (b.next e).Sound := by
  obtain ⟨step, answer⟩ := e
  cases step with
  | post outcome =>
    refine ⟨Table.nodup_keys_insert sound.distinct _ _, fun id found shown => ?_⟩
    rw [Board.next, get?_put] at shown
    split at shown
    next => exact Option.some.inj shown ▸ dated outcome rfl
    next => exact sound.dated id found shown
  | discard cutoff =>
    refine ⟨distinct_prune sound.distinct cutoff, fun id found shown => ?_⟩
    rw [Board.next, get?_prune sound.distinct] at shown
    exact sound.dated id found (Option.filter_eq_some_iff.mp shown).1
  | announce => exact ⟨sound.distinct, sound.dated⟩
  | _ => exact sound

theorem Sound.after {b : Board} (sound : b.Sound) {events : List Event}
    (dated : ∀ e ∈ events, ∀ outcome ∈ e.posted?, outcome.IsDated) : (b.after events).Sound := by
  induction events generalizing b with
  | nil => exact sound
  | cons e rest ih =>
    exact ih (sound.next (dated e List.mem_cons_self)) fun x member =>
      dated x (List.mem_cons_of_mem e member)

/-! ## Outcomes that are set -/

/-- The ids that events put on the board and that are new to it. -/
def newcomers (b : Board) : List Event → List String
  | [] => []
  | e :: rest =>
    (e.posted?.bind fun o => if (b.get? o.command).isSome then none else some o.command).toList ++
      (b.next e).newcomers rest

/-- The board grows by the commands that are new to it. -/
theorem size_after (b : Board) {events : List Event}
    (keeps : ∀ e ∈ events, ∀ cutoff, e.step ≠ .discard cutoff) :
    (b.after events).size = b.size + (b.newcomers events).length := by
  induction events generalizing b with
  | nil => rfl
  | cons e rest ih =>
    have later := ih (b.next e) fun x member => keeps x (List.mem_cons_of_mem e member)
    have first : (b.next e).size = b.size +
        (e.posted?.bind fun o => if (b.get? o.command).isSome then none
          else some o.command).toList.length := by
      obtain ⟨step, answer⟩ := e
      cases step with
      | post outcome =>
        show (b.outcomes.insert outcome.command outcome).size = _
        rw [Table.size_insert]
        show _ = b.size + (if (b.outcomes.get? outcome.command).isSome then none
          else some outcome.command).toList.length
        split <;> rfl
      | discard cutoff => exact absurd rfl (keeps _ List.mem_cons_self cutoff)
      | _ => rfl
    calc (b.after (e :: rest)).size
        = (b.next e).size + ((b.next e).newcomers rest).length := later
      _ = b.size + (b.newcomers (e :: rest)).length := by
        rw [first, newcomers, List.length_append, Nat.add_assoc]

/-- An outcome that nobody sets or takes off stays as it is. -/
theorem get?_after (b : Board) {id : String} {events : List Event}
    (keeps : ∀ e ∈ events, ∀ cutoff, e.step ≠ .discard cutoff)
    (foreign : ∀ e ∈ events, ∀ outcome ∈ e.posted?, outcome.command ≠ id) :
    (b.after events).get? id = b.get? id := by
  induction events generalizing b with
  | nil => rfl
  | cons e rest ih =>
    have first : (b.next e).get? id = b.get? id := by
      obtain ⟨step, answer⟩ := e
      cases step with
      | post outcome =>
        show (b.put outcome).get? id = _
        rw [get?_put, if_neg (foreign _ List.mem_cons_self outcome rfl)]
      | discard cutoff => exact absurd rfl (keeps _ List.mem_cons_self cutoff)
      | _ => rfl
    rw [← first]
    exact ih (b.next e) (fun x member => keeps x (List.mem_cons_of_mem e member))
      fun x member => foreign x (List.mem_cons_of_mem e member)

end Board

/-! ## Schedules with a board -/

namespace Ensemble

variable {ι : Type} [DecidableEq ι] {β : ι → Type}

/-- Takes turns as scheduled, where a board answers what is asked of it.  Whoever cannot take a turn
is passed over. -/
def attend (b : Board) : List ι → Ensemble β → List (ι × Event) × Ensemble β
  | [], s => ([], s)
  | i :: rest, s =>
    match s.tasks i with
    | .done _ => attend b rest s
    | .step step next =>
      match holderAfter s.holder i step with
      | none => attend b rest s
      | some holder =>
        let e : Event := ⟨step, b.answer step⟩
        let attended := attend (b.next e) rest
          { tasks := Function.update s.tasks i (next (b.answer step)), holder
            store := storeAfter s.store 0 step }
        ((i, e) :: attended.1, attended.2)

theorem run_attend (b : Board) (schedule : List ι) (s : Ensemble β) :
    Run (fun _ => True) s (attend b schedule s).1 (attend b schedule s).2 := by
  induction schedule generalizing b s with
  | nil => exact .nil
  | cons i rest ih =>
    unfold attend
    split
    next => exact ih b s
    next step next ready =>
      split
      next => exact ih b s
      next holder free => exact .cons (.mk 0 ready free trivial) (ih _ _)

theorem serves_attend (b : Board) (schedule : List ι) (s : Ensemble β) :
    b.Serves ((attend b schedule s).1.map Prod.snd) := by
  induction schedule generalizing b s with
  | nil => exact trivial
  | cons i rest ih =>
    unfold attend
    split
    next => exact ih b s
    next step next ready =>
      split
      next => exact ih b s
      next holder free => exact ⟨fun _ => rfl, ih _ _⟩

omit [DecidableEq ι] in
theorem holderAfter_of_not_lock (holder : LinkId → Option ι) (i : ι) {step : Step}
    (free : ∀ link, step ≠ .lock link) : ∃ holder', holderAfter holder i step = some holder' := by
  cases step with
  | lock link => exact absurd rfl (free link)
  | _ => exact ⟨_, rfl⟩

/-- An activity that takes no locks can always go on to its end, while a board answers. -/
theorem exists_run_to_end (b : Board) (s : Ensemble β) (i : ι)
    (free : (s.tasks i).Only fun step => ∀ link, step ≠ .lock link) :
    ∃ more s' v, Run (fun _ => True) s more s' ∧ b.Serves (more.map Prod.snd) ∧
      s'.tasks i = .done v := by
  generalize ready : s.tasks i = a at free
  induction a generalizing b s with
  | done v => exact ⟨[], s, v, .nil, trivial, ready⟩
  | step step next ih =>
    obtain ⟨holder, taken⟩ := holderAfter_of_not_lock s.holder i free.1
    let s₁ : Ensemble β :=
      { tasks := Function.update s.tasks i (next (b.answer step)), holder
        store := storeAfter s.store 0 step }
    obtain ⟨more, s', v, run, serves, through⟩ := ih (b.answer step)
      (b.next ⟨step, b.answer step⟩) s₁ (Function.update_self ..) (free.2 _)
    exact ⟨(i, ⟨step, b.answer step⟩) :: more, s', v, .cons (.mk 0 ready taken trivial) run,
      ⟨fun _ => rfl, serves⟩, through⟩

end Ensemble

end Fieldbus
