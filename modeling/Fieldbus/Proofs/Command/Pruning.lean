import Mathlib.Algebra.GroupWithZero.Nat
import Fieldbus.Proofs.Command.Board

/-!
# Pruning among set calls

Pruning the board has three steps: its size is read, outcomes are taken off, and its size is read
again.  Others may set outcomes before, between and after them.

What is taken off is as it should be (`Pruning.Goes.takes`, `Pruning.Goes.ended`).  What is counted
is not only that: each command that comes to the board between the two readings takes one off the
count, in 64 bits (`prune_among_setters`).
-/

namespace Fieldbus

open Ensemble (Run eventsOf mem_eventsOf eventsOf_append eventsOf_cons_self split_of_eventsOf)

/-! ## Those who are at the board -/

/-- Somebody who prunes the board, and others who set outcomes. -/
inductive Attendant (κ : Type) where
  | pruner
  | setter (k : κ)
deriving DecidableEq

/-- What the activity of an attendant ends with. -/
@[reducible] def Attendant.Value {κ : Type} : Attendant κ → Type
  | .pruner => UInt64
  | .setter _ => Unit

/-- A step that takes nothing off the board and puts on it only what is dated. -/
def Step.IsSetting : Step → Prop
  | .discard _ => False
  | .post outcome => outcome.IsDated
  | _ => True

theorem Step.IsSetting.ne_discard {step : Step} (h : step.IsSetting) (cutoff : Instant) :
    step ≠ .discard cutoff := by
  rintro rfl
  exact h

theorem Step.IsSetting.isDated {e : Event} (h : e.step.IsSetting) :
    ∀ outcome ∈ e.posted?, outcome.IsDated := by
  intro outcome posted
  obtain ⟨step, answer⟩ := e
  cases step with
  | post own =>
    cases posted
    exact h
  | _ => cases posted

namespace Command

/-- Sets the statuses of commands one after another. -/
def setAll : List (String × CommandStatus) → Activity Unit
  | [] => return ()
  | (id, status) :: rest => do
    report id status
    setAll rest

theorem report_isSetting (id : String) (status : CommandStatus) :
    (report id status).Only Step.IsSetting := by
  refine .ask_bind trivial fun time => .ask_bind (Board.outcomeOf_isDated id status time) fun _ => ?_
  split
  · exact .ask trivial
  · trivial

theorem setAll_isSetting (calls : List (String × CommandStatus)) :
    (setAll calls).Only Step.IsSetting := by
  induction calls with
  | nil => trivial
  | cons call rest ih => exact .bind (report_isSetting call.1 call.2) fun _ => ih

end Command

section

variable {κ : Type} {cutoff : Instant} {setters : κ → Activity Unit}
  {store : Store} {b : Board}
  {s : Ensemble (Attendant.Value (κ := κ))} {n : UInt64}

/-- A pruner and setters, before their first steps. -/
def attending (cutoff : Instant) (setters : κ → Activity Unit) (store : Store) :
    Ensemble (Attendant.Value (κ := κ)) :=
  { tasks := fun
      | .pruner => Command.prune cutoff
      | .setter k => setters k
    store }

/-! ## The course of a prune -/

/-- A history with the three steps of a prune in it. -/
structure Pruning (κ : Type) where
  earlier : List (Attendant κ × Event)
  /-- The first reading of the size. -/
  first : Nat
  between : List (Attendant κ × Event)
  behind : List (Attendant κ × Event)
  /-- The second reading of the size. -/
  second : Nat
  later : List (Attendant κ × Event)

namespace Pruning

def history (p : Pruning κ) (cutoff : Instant) : List (Attendant κ × Event) :=
  p.earlier ++ (.pruner, ⟨.countOutcomes, p.first⟩) :: (p.between ++
    (.pruner, ⟨.discard cutoff, ()⟩) :: (p.behind ++
      (.pruner, ⟨.countOutcomes, p.second⟩) :: p.later))

/-- The board at the first reading. -/
def start (p : Pruning κ) (b : Board) : Board := b.after (p.earlier.map Prod.snd)

/-- The board that outcomes are taken off. -/
def found (p : Pruning κ) (b : Board) : Board := (p.start b).after (p.between.map Prod.snd)

/-- The board that is left. -/
def left (p : Pruning κ) (b : Board) (cutoff : Instant) : Board := (p.found b).prune cutoff

/-- The outcomes that are taken off. -/
def removed (p : Pruning κ) (b : Board) (cutoff : Instant) : List Outcome :=
  (p.found b).expired cutoff

/-- The commands that come to the board between the two readings. -/
def added (p : Pruning κ) (b : Board) (cutoff : Instant) : List String :=
  (p.start b).newcomers (p.between.map Prod.snd) ++
    (p.left b cutoff).newcomers (p.behind.map Prod.snd)

/-- What a prune does and what it says. -/
structure Goes (p : Pruning κ) (b : Board) (cutoff : Instant) (n : UInt64) : Prop where
  takes : ∀ id, (p.left b cutoff).get? id = ((p.found b).get? id).filter (Board.keeps cutoff)
  ended : ∀ outcome ∈ p.removed b cutoff,
    outcome.status.isTerminal = true ∧ ∃ time, outcome.completedAt = some time ∧ time < cutoff
  /-- An outcome that nobody sets meanwhile is taken off, or stays as it is. -/
  throughout : ∀ id,
    (∀ e ∈ (p.history cutoff).map Prod.snd, ∀ outcome ∈ e.posted?, outcome.command ≠ id) →
      (b.after ((p.history cutoff).map Prod.snd)).get? id = (b.get? id).filter (Board.keeps cutoff)
  count : n = UInt64.ofNat (p.removed b cutoff).length - UInt64.ofNat (p.added b cutoff).length
  underflow : p.first < p.second ↔ (p.removed b cutoff).length < (p.added b cutoff).length
  exact_iff : (p.added b cutoff).length < 2 ^ 64 →
    (n = UInt64.ofNat (p.removed b cutoff).length ↔ p.added b cutoff = [])

end Pruning

theorem Command.prune_performs {events : List Event}
    (performs : (prune cutoff).Performs events (.done n)) :
    ∃ first second, n = UInt64.ofNat first - UInt64.ofNat second ∧
      events = [⟨.countOutcomes, first⟩, ⟨.discard cutoff, ()⟩, ⟨.countOutcomes, second⟩] := by
  obtain ⟨first, _, rfl, discards⟩ := performs.of_ask_bind
  obtain ⟨_, _, rfl, counts⟩ := discards.of_ask_bind
  obtain ⟨second, _, rfl, ends⟩ := counts.of_ask_bind
  obtain ⟨rfl, rfl⟩ := Activity.performs_pure.mp ends
  exact ⟨first, second, rfl, rfl⟩

namespace Pruning

variable {p : Pruning κ}

/-- The board behind a part of the history. -/
theorem after_history (p : Pruning κ) (b : Board) (events : List Event) :
    b.after (p.earlier.map Prod.snd ++ ⟨.countOutcomes, p.first⟩ :: (p.between.map Prod.snd ++
      ⟨.discard cutoff, ()⟩ :: events)) = (p.left b cutoff).after events := by
  rw [Board.after_append]
  show (p.start b).after (p.between.map Prod.snd ++ _ :: events) = _
  rw [Board.after_append]
  rfl

theorem map_history (p : Pruning κ) (cutoff : Instant) :
    (p.history cutoff).map Prod.snd = p.earlier.map Prod.snd ++ ⟨.countOutcomes, p.first⟩ ::
      (p.between.map Prod.snd ++ ⟨.discard cutoff, ()⟩ ::
        (p.behind.map Prod.snd ++ ⟨.countOutcomes, p.second⟩ :: p.later.map Prod.snd)) := by
  simp [history]

theorem first_eq (serves : b.Serves ((p.history cutoff).map Prod.snd)) :
    p.first = (p.start b).size := by
  rw [map_history] at serves
  exact serves.answer_eq rfl

theorem second_eq (serves : b.Serves ((p.history cutoff).map Prod.snd)) :
    p.second = ((p.left b cutoff).after (p.behind.map Prod.snd)).size := by
  rw [map_history, ← List.cons_append, ← List.append_assoc, ← List.cons_append,
    ← List.append_assoc] at serves
  have own := serves.answer_eq rfl
  rwa [List.append_assoc, List.cons_append, after_history] at own

/-- All else that is done is setting. -/
structure AmongSetters (p : Pruning κ) : Prop where
  earlier : ∀ e ∈ p.earlier.map Prod.snd, e.step.IsSetting
  between : ∀ e ∈ p.between.map Prod.snd, e.step.IsSetting
  behind : ∀ e ∈ p.behind.map Prod.snd, e.step.IsSetting
  later : ∀ e ∈ p.later.map Prod.snd, e.step.IsSetting

/-- What comes to the board between the two readings makes up for what is taken off. -/
theorem balance (among : p.AmongSetters) (serves : b.Serves ((p.history cutoff).map Prod.snd)) :
    p.first + (p.added b cutoff).length = p.second + (p.removed b cutoff).length := by
  have grown : (p.found b).size =
      (p.start b).size + ((p.start b).newcomers (p.between.map Prod.snd)).length :=
    Board.size_after _ fun e member => (among.between e member).ne_discard
  have pruned : (p.left b cutoff).size + (p.removed b cutoff).length = (p.found b).size :=
    Board.size_prune _ _
  have grown' : ((p.left b cutoff).after (p.behind.map Prod.snd)).size =
      (p.left b cutoff).size + ((p.left b cutoff).newcomers (p.behind.map Prod.snd)).length :=
    Board.size_after _ fun e member => (among.behind e member).ne_discard
  rw [first_eq serves, second_eq serves, added, List.length_append]
  omega

theorem goes_of_amongSetters (among : p.AmongSetters) (sound : b.Sound)
    (serves : b.Serves ((p.history cutoff).map Prod.snd))
    (count : n = UInt64.ofNat p.first - UInt64.ofNat p.second) : p.Goes b cutoff n := by
  have sound' : (p.found b).Sound :=
    (sound.after fun e member => (among.earlier e member).isDated).after fun e member =>
      (among.between e member).isDated
  have balance := p.balance among serves
  have counted : n = UInt64.ofNat (p.removed b cutoff).length -
      UInt64.ofNat (p.added b cutoff).length := by
    have words := congrArg UInt64.ofNat balance
    rw [UInt64.ofNat_add, UInt64.ofNat_add] at words
    rw [count]
    grind
  refine ⟨Board.get?_prune sound'.distinct cutoff, fun outcome => sound'.expired, ?throughout,
    counted, by omega, ?exact_iff⟩
  case throughout =>
    intro id foreign
    rw [map_history] at foreign ⊢
    obtain ⟨early, -, between, -, behind, -, late⟩ := by
      simpa only [List.forall_mem_append, List.forall_mem_cons] using foreign
    rw [after_history, Board.after_append]
    calc Board.get? (Board.after _ (p.later.map Prod.snd)) id
        = ((p.left b cutoff).after (p.behind.map Prod.snd)).get? id :=
          Board.get?_after _ (fun e member => (among.later e member).ne_discard) late
      _ = (p.left b cutoff).get? id :=
          Board.get?_after _ (fun e member => (among.behind e member).ne_discard) behind
      _ = ((p.found b).get? id).filter (Board.keeps cutoff) :=
          Board.get?_prune sound'.distinct cutoff id
      _ = ((p.start b).get? id).filter (Board.keeps cutoff) := by
          rw [found, Board.get?_after _ (fun e member => (among.between e member).ne_discard) between]
      _ = (b.get? id).filter (Board.keeps cutoff) := by
          rw [start, Board.get?_after _ (fun e member => (among.earlier e member).ne_discard) early]
  case exact_iff =>
    intro few
    rw [counted]
    constructor
    · intro same
      have none : UInt64.ofNat (p.added b cutoff).length = 0 := by grind
      have zero := congrArg UInt64.toNat none
      rw [UInt64.toNat_ofNat_of_lt' few] at zero
      exact List.length_eq_zero_iff.mp zero
    · intro none
      rw [none]
      exact UInt64.sub_zero _

end Pruning

variable [DecidableEq κ]

/-- The steps of a prune that is through, and nothing else of it, are in its history. -/
theorem exists_pruning {history : List (Attendant κ × Event)}
    (performs : (Command.prune cutoff).Performs (eventsOf .pruner history) (.done n)) :
    ∃ p : Pruning κ, history = p.history cutoff ∧
      n = UInt64.ofNat p.first - UInt64.ofNat p.second ∧
      ∀ e ∈ p.earlier ++ p.between ++ p.behind ++ p.later, e.1 ≠ .pruner := by
  obtain ⟨first, second, count, steps⟩ := Command.prune_performs performs
  obtain ⟨earlier, _, rfl, idle, steps⟩ := split_of_eventsOf (show _ = [] ++ _ :: _ from steps)
  obtain ⟨between, _, rfl, idle', steps⟩ := split_of_eventsOf (show _ = [] ++ _ :: _ from steps)
  obtain ⟨behind, later, rfl, idle'', rest⟩ := split_of_eventsOf (show _ = [] ++ _ :: _ from steps)
  refine ⟨⟨earlier, first, between, behind, second, later⟩, rfl, count, ?_⟩
  rintro ⟨i, e⟩ member rfl
  have own : e ∈ eventsOf .pruner (earlier ++ between ++ behind ++ later) := mem_eventsOf.mpr member
  simp [idle, idle', idle'', rest] at own

/-- Among any setters, pruning takes off the outcomes of commands that ended before the cutoff, and
no others, and it always comes to its end.  Its count is short by each command that came to the
board between the two readings, so it is right just if there was none, and it wraps around if there
were more of them than outcomes to take off. -/
theorem prune_among_setters {history : List (Attendant κ × Event)}
    (setting : ∀ k, (setters k).Only Step.IsSetting) (sound : b.Sound)
    (run : Run (fun _ => True) (attending cutoff setters store) history s)
    (serves : b.Serves (history.map Prod.snd)) :
    (∃ more s' n, Run (fun _ => True) s more s' ∧ b.Serves ((history ++ more).map Prod.snd) ∧
      s'.tasks .pruner = .done n) ∧
    ∀ n, s.tasks .pruner = .done n → ∃ p : Pruning κ, history = p.history cutoff ∧ p.Goes b cutoff n := by
  refine ⟨?ends, fun n through => ?_⟩
  case ends =>
    have free : (Command.prune cutoff).Only fun step => ∀ link, step ≠ .lock link :=
      .ask_bind (fun _ => nofun) fun _ => .ask_bind (fun _ => nofun) fun _ =>
        .ask_bind (fun _ => nofun) fun _ => trivial
    obtain ⟨more, s', n, further, serves', through⟩ := Ensemble.exists_run_to_end
      (b.after (history.map Prod.snd)) s .pruner (free.left (run.performs .pruner))
    refine ⟨more, s', n, further, ?_, through⟩
    rw [List.map_append]
    exact Board.serves_append.mpr ⟨serves, serves'⟩
  have performs := run.performs .pruner
  rw [through] at performs
  obtain ⟨p, rfl, count, others⟩ := exists_pruning performs
  have sets : ∀ e ∈ p.earlier ++ p.between ++ p.behind ++ p.later, e.2.step.IsSetting := by
    rintro ⟨i, e⟩ member
    cases i with
    | pruner => exact absurd rfl (others _ member)
    | setter k =>
      have inside : (.setter k, e) ∈ p.history cutoff := by
        simp only [Pruning.history, List.mem_append, List.mem_cons] at member ⊢
        tauto
      exact (setting k).of_performs (run.performs (.setter k)) e (mem_eventsOf.mpr inside)
  simp only [List.forall_mem_append] at sets
  obtain ⟨⟨⟨early, between⟩, behind⟩, late⟩ := sets
  have among : p.AmongSetters := ⟨List.forall_mem_map.mpr early, List.forall_mem_map.mpr between,
    List.forall_mem_map.mpr behind, List.forall_mem_map.mpr late⟩
  exact ⟨p, rfl, p.goes_of_amongSetters among sound serves count⟩

end

/-! ## A command that comes between -/

/-- A command is queued while a board is pruned, behind the first reading of the size. -/
def newcomer (b : Board) : List (Attendant Unit × Event) × Ensemble (Attendant.Value (κ := Unit)) :=
  Ensemble.attend b [.pruner, .setter (), .setter (), .pruner, .pruner]
    (attending 5 (fun _ => Command.setAll [("new", .queued)]) {})

/-- A board with a command that has ended at time zero. -/
def endedBoard : Board := ({} : Board).put (Board.outcomeOf "old" .acknowledged 0)

theorem endedBoard_sound : endedBoard.Sound := by
  refine Board.empty_sound.next (e := ⟨.post (Board.outcomeOf "old" .acknowledged 0), ()⟩) ?_
  intro outcome posted
  cases posted
  exact Board.outcomeOf_isDated ..

-- One outcome is taken off, and none is counted.
theorem newcomer_prune_among_setters :
    (∀ _ : Unit, (Command.setAll [("new", .queued)]).Only Step.IsSetting) ∧ endedBoard.Sound ∧
      ∃ p : Pruning Unit, (newcomer endedBoard).1 = p.history 5 ∧ p.Goes endedBoard 5 0 :=
  have setting := fun _ : Unit => Command.setAll_isSetting [("new", .queued)]
  ⟨setting, endedBoard_sound,
    (prune_among_setters setting endedBoard_sound (Ensemble.run_attend ..)
      (Ensemble.serves_attend ..)).2 0 rfl⟩

/-- On an empty board nothing is taken off, and the count is the greatest that there is. -/
theorem newcomer_wraps_count :
    ((newcomer {}).2.tasks .pruner).value? = some 18446744073709551615 ∧
      ∃ before after, (newcomer {}).1 = before ++ (.pruner, ⟨.discard 5, ()⟩) :: after ∧
        (Board.after {} (before.map Prod.snd)).expired 5 = [] :=
  ⟨by decide +kernel, [_, _, _], _, rfl, rfl⟩

end Fieldbus
