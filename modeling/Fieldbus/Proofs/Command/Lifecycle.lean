import Fieldbus.Proofs.Activity.Interleaving
import Fieldbus.Proofs.Command.Signs

/-!
# Lives of commands

The status of a command is set by two activities that never wait for each other: its submitter
puts down that it is queued, or that it was not taken, and the executor puts down everything else.
Only the queue lies between them.

The executor's signs of a command begin when the command leaves the queue.  By then the submitter
has given all of its own, so the executor's stand behind them (`Handled.signs_eq`).  The queue loses
nothing, so no command is left without an end.  `commands_end` puts this together for any number of
submitters and any interleaving, with cancellation at any instant.
-/

namespace Fieldbus

open Activity (Performs)
open Ensemble (Run eventsOf mem_eventsOf eventsOf_append eventsOf_cons_self)

/-! ## Submitters and an executor -/

/-- Those who handle commands. -/
inductive Handler (κ : Type) where
  | submitter (k : κ)
  | executor
deriving DecidableEq

/-- What the activity of a handler ends with. -/
@[reducible] def Handler.Value {κ : Type} : Handler κ → Type
  | .submitter _ => List Bool
  | .executor => Unit

section

variable {κ : Type} [DecidableEq κ] {batches : κ → List Command} {capacity fuel : Nat}
  {store : Store} {history before after : List (Handler κ × Event)}
  {s : Ensemble (Handler.Value (κ := κ))} {q : CommandQueue} {id : String} {k : κ}

/-- Submitters, each with its commands, and an executor, before their first steps. -/
def handling (batches : κ → List Command) (fuel : Nat) (store : Store) :
    Ensemble (Handler.Value (κ := κ)) :=
  { tasks := fun
      | .submitter k => Command.submitAll (batches k)
      | .executor => Command.serve fuel
    store }

/-- No two commands have the same id. -/
structure DistinctIds (batches : κ → List Command) : Prop where
  within : ∀ k, ((batches k).map Command.id).Nodup
  across : ∀ j k id, id ∈ (batches j).map Command.id → id ∈ (batches k).map Command.id → j = k

/-- A history of submitters and an executor at a queue that was empty before. -/
structure Handled (batches : κ → List Command) (capacity fuel : Nat) (store : Store)
    (history : List (Handler κ × Event)) (s : Ensemble (Handler.Value (κ := κ)))
    (q : CommandQueue) : Prop where
  distinct : DistinctIds batches
  run : Run (fun _ => True) (handling batches fuel store) history s
  serves : (CommandQueue.ofCapacity capacity).Serves (history.map Prod.snd) q

namespace Handled

/-! ## Who does what -/

theorem of_submitter (h : Handled batches capacity fuel store history s q) {e : Event}
    (member : (.submitter k, e) ∈ history) :
    e.step.isExecuting = true ∨ ∃ c ∈ batches k, e.step = .send c :=
  (Command.submitAll_only _).of_performs (h.run.performs (.submitter k)) e
    (mem_eventsOf.mpr member)

theorem of_executor (h : Handled batches capacity fuel store history s q) {e : Event}
    (member : (.executor, e) ∈ history) :
    e.step.isExecuting = true ∨ e.step = .receive ∨ e.step = .closeQueue :=
  (Command.serve_only _).of_performs (h.run.performs .executor) e (mem_eventsOf.mpr member)

/-- Only the executor takes commands off the queue. -/
theorem executor_of_takenOut (h : Handled batches capacity fuel store history s q)
    {e : Handler κ × Event} (member : e ∈ history) (out : e.2.takenOut ≠ []) :
    e.1 = .executor := by
  obtain ⟨i, e⟩ := e
  cases i with
  | executor => rfl
  | submitter k =>
    rcases h.of_submitter member with executing | ⟨c, -, sending⟩
    · exact absurd (Event.aside (Step.isQueueing_of_isExecuting executing)).2.1 out
    · obtain ⟨step, answer⟩ := e
      subst sending
      exact absurd rfl out

theorem takenOut_eq (h : Handled batches capacity fuel store history s q) :
    takenOut (history.map Prod.snd) = takenOut (eventsOf .executor history) :=
  Ensemble.flatMap_of_party fun _ he out => h.executor_of_takenOut he out

theorem executed_eq (h : Handled batches capacity fuel store history s q) :
    executed (history.map Prod.snd) = executed (eventsOf .executor history) := by
  refine Ensemble.filterMap_of_party fun e he received => h.executor_of_takenOut he ?_
  obtain ⟨i, step, answer⟩ := e
  cases step with
  | receive => cases answer with
    | none => exact absurd rfl received
    | some c => exact List.cons_ne_nil c []
  | _ => exact absurd rfl received

/-- Only submitters put commands on the queue. -/
theorem submitter_of_entered (h : Handled batches capacity fuel store history s q)
    {e : Handler κ × Event} {c : Command} (member : e ∈ history) (entered : e.2.entered? = some c) :
    ∃ k, c ∈ batches k ∧ e = (.submitter k, ⟨.send c, true⟩) := by
  obtain ⟨i, step, answer⟩ := e
  have sent : (⟨step, answer⟩ : Event) = ⟨.send c, true⟩ := by
    cases step with
    | send d =>
      simp only [Event.entered?] at entered
      split at entered
      next taken =>
        cases entered
        subst taken
        rfl
      next => cases entered
    | _ => cases entered
  rw [sent] at member ⊢
  cases i with
  | submitter k =>
    rcases h.of_submitter member with executing | ⟨d, own, sending⟩
    · cases executing
    · cases sending
      exact ⟨k, own, rfl⟩
  | executor =>
    rcases h.of_executor member with executing | asking | closing
    · cases executing
    · cases asking
    · cases closing

/-- A submitter gives signs of its own commands only. -/
theorem own_of_sign (h : Handled batches capacity fuel store history s q) {e : Event}
    (member : (.submitter k, e) ∈ history) (sign : e.sign? id ≠ none) :
    id ∈ (batches k).map Command.id := by
  by_contra foreign
  obtain ⟨more, _, whole, -⟩ := (h.run.performs (.submitter k)).completed
  have silent := (Command.submitAll_signs whole).1 foreign
  rw [signs_append] at silent
  have none := List.filterMap_eq_nil_iff.mp (List.append_eq_nil_iff.mp silent).1
  exact sign (none e (mem_eventsOf.mpr member))

/-! ## The signs of each -/

/-- A submitter gives the signs of a submission, one after another. -/
theorem submitter_signs (h : Handled batches capacity fuel store history s q)
    (own : id ∈ (batches k).map Command.id) :
    ∃ taken, signs id (eventsOf (.submitter k) history) <+: Command.submission taken ∧
      ∀ v, s.tasks (.submitter k) = .done v →
        signs id (eventsOf (.submitter k) history) = Command.submission taken := by
  have performs := h.run.performs (.submitter k)
  cases ended : s.tasks (.submitter k) with
  | done v =>
    rw [ended] at performs
    obtain ⟨taken, all⟩ := (Command.submitAll_signs performs).2 (h.distinct.within k) own
    exact ⟨taken, all ▸ List.prefix_refl _, fun _ _ => all⟩
  | step =>
    obtain ⟨more, _, whole, -⟩ := performs.completed
    obtain ⟨taken, all⟩ := (Command.submitAll_signs whole).2 (h.distinct.within k) own
    rw [signs_append] at all
    exact ⟨taken, all ▸ List.prefix_append .., fun v through => by cases through⟩

/-- What the executor does is the beginning of serving the commands that it received. -/
theorem executor_served (h : Handled batches capacity fuel store history s q) :
    ∃ whole refused, eventsOf .executor history <+: whole ∧
      Command.Served (executed (history.map Prod.snd)) whole refused ∧
      takenOut (history.map Prod.snd) = executed (history.map Prod.snd) ++ refused ∧
      (s.tasks .executor = .done () → eventsOf .executor history = whole) := by
  rw [h.executed_eq, h.takenOut_eq]
  have performs := h.run.performs .executor
  cases ended : s.tasks .executor with
  | done v =>
    rw [ended] at performs
    obtain ⟨cs, refused, served⟩ := Command.serve_served performs
    rw [served.executed_eq]
    exact ⟨_, refused, List.prefix_refl _, served, served.takenOut_eq, fun _ => rfl⟩
  | step =>
    obtain ⟨more, _, whole, simplest⟩ := performs.completed
    obtain ⟨cs, refused, served⟩ := Command.serve_served whole
    -- With the simplest answers nothing more is received.
    have nothing : executed more = [] ∧ takenOut more = [] := by
      refine ⟨List.filterMap_eq_nil_iff.mpr fun e he => ?_,
        List.flatMap_eq_nil_iff.mpr fun e he => ?_⟩
      all_goals
        obtain ⟨step, answer⟩ := e
        have simple : answer = (default : step.Answer) := simplest _ he
        subst simple
        cases step with
        | _ => rfl
    have received := served.executed_eq
    have out := served.takenOut_eq
    rw [executed_append, nothing.1, List.append_nil] at received
    rw [takenOut_append, nothing.2, List.append_nil] at out
    rw [received]
    exact ⟨_, refused, List.prefix_append .., served, out, fun through => by cases through⟩

/-! ## The order of the signs -/

theorem of_append (h : Handled batches capacity fuel store (before ++ after) s q) :
    ∃ s' q', Handled batches capacity fuel store before s' q' := by
  obtain ⟨s', run, -⟩ := h.run.of_append
  have serves := h.serves
  rw [List.map_append] at serves
  obtain ⟨q', serves, -⟩ := serves.of_append
  exact ⟨s', q', h.distinct, run, serves⟩

/-- What has left the queue was put on it. -/
theorem takenOut_prefix (h : Handled batches capacity fuel store history s q) :
    takenOut (history.map Prod.snd) <+: entered (history.map Prod.snd) :=
  ⟨q.items, h.serves.fifo.symm⟩

/-- What was put on the queue is a command of a submitter. -/
theorem submitted_of_entered (h : Handled batches capacity fuel store history s q) {c : Command}
    (member : c ∈ entered (history.map Prod.snd)) : ∃ k, c ∈ batches k := by
  obtain ⟨e, he, entered⟩ := List.mem_filterMap.mp member
  obtain ⟨e, there, rfl⟩ := List.mem_map.mp he
  obtain ⟨k, own, -⟩ := h.submitter_of_entered there entered
  exact ⟨k, own⟩

/-- What was put on the queue was put there by its submitter. -/
theorem offered_of_entered (h : Handled batches capacity fuel store history s q)
    (member : id ∈ (entered (history.map Prod.snd)).map Command.id) :
    ∃ k, id ∈ (batches k).map Command.id ∧
      .offered true ∈ signs id (eventsOf (.submitter k) history) := by
  obtain ⟨c, entered, rfl⟩ := List.mem_map.mp member
  obtain ⟨e, he, entered⟩ := List.mem_filterMap.mp entered
  obtain ⟨e, there, rfl⟩ := List.mem_map.mp he
  obtain ⟨k, own, rfl⟩ := h.submitter_of_entered there entered
  have sign : (⟨.send c, true⟩ : Event).sign? c.id = some (.offered true) := if_pos rfl
  exact ⟨k, List.mem_map_of_mem own, List.mem_filterMap.mpr ⟨_, mem_eventsOf.mpr there, sign⟩⟩

/-- No command enters the queue twice. -/
theorem entered_nodup (h : Handled batches capacity fuel store history s q) :
    ((entered (history.map Prod.snd)).map Command.id).Nodup := by
  rw [List.Nodup, List.pairwise_map, entered, List.pairwise_filterMap, List.pairwise_map,
    List.pairwise_iff_forall_sublist]
  intro e f both c first d second same
  have he := both.subset List.mem_cons_self
  have hf := both.subset (List.mem_cons_of_mem _ List.mem_cons_self)
  obtain ⟨j, own, rfl⟩ := h.submitter_of_entered he first
  obtain ⟨k, foreign, rfl⟩ := h.submitter_of_entered hf second
  have one : (⟨.send c, true⟩ : Event).sign? c.id = some (.offered true) := if_pos rfl
  have other : (⟨.send d, true⟩ : Event).sign? c.id = some (.offered true) := if_pos same.symm
  have own : c.id ∈ (batches j).map Command.id := List.mem_map_of_mem own
  have foreign : d.id ∈ (batches k).map Command.id := List.mem_map_of_mem foreign
  obtain rfl := h.distinct.across j k c.id own (same ▸ foreign)
  -- Both were sent by one submitter, which sends no command twice.
  obtain ⟨taken, begun, -⟩ := h.submitter_signs own
  have parts : List.Sublist [⟨.send c, true⟩, ⟨.send d, true⟩]
      (eventsOf (.submitter j) history) := by
    simpa [eventsOf] using both.filterMap fun e => if e.1 = .submitter j then some e.2 else none
  have twice := parts.filterMap (Event.sign? c.id)
  rw [List.filterMap_cons_some one, List.filterMap_cons_some other] at twice
  have distinct := (Command.submission_nodup taken).sublist (twice.trans begun.sublist)
  simp at distinct

/-- What the executor does to a command, as far as it has come. -/
theorem executor_signs (h : Handled batches capacity fuel store history s q) (id : String) :
    (id ∉ (takenOut (history.map Prod.snd)).map Command.id →
        signs id (eventsOf .executor history) = []) ∧
      (id ∈ (takenOut (history.map Prod.snd)).map Command.id →
        ∃ course, Command.Service course ∧ signs id (eventsOf .executor history) <+: course ∧
          (s.tasks .executor = .done () → signs id (eventsOf .executor history) = course) ∧
          (id ∉ (executed (history.map Prod.snd)).map Command.id →
            course = [.refused, .status (.failed .executorStopped)])) := by
  obtain ⟨whole, refused, begun, served, out, through⟩ := h.executor_served
  have distinct := h.entered_nodup.sublist (h.takenOut_prefix.sublist.map Command.id)
  have begun : signs id (eventsOf .executor history) <+: signs id whole := begun.filterMap _
  rw [out] at distinct ⊢
  refine ⟨fun absent => ?_, fun member => ?_⟩
  · rw [served.signs_of_not_mem absent] at begun
    exact List.prefix_nil.mp begun
  · obtain ⟨service, never⟩ := served.signs_of_mem distinct member
    exact ⟨_, service, begun, fun ended => by rw [through ended], never⟩

/-- The executor's signs of a command stand behind those of its submitter. -/
theorem signs_eq (h : Handled batches capacity fuel store history s q)
    (own : id ∈ (batches k).map Command.id) :
    signs id (history.map Prod.snd) =
      signs id (eventsOf (.submitter k) history) ++ signs id (eventsOf .executor history) := by
  refine Ensemble.filterMap_of_parties nofun (fun e member sign => ?_) ?_
  · obtain ⟨i, e⟩ := e
    cases i with
    | executor => exact .inr rfl
    | submitter j => exact .inl (by rw [h.distinct.across j k id (h.own_of_sign member sign) own])
  · rintro before e after rfl sign
    rw [List.append_cons] at h
    obtain ⟨s', q', sofar⟩ := h.of_append
    -- The executor has given a sign, so the command has left the queue.
    have out : id ∈ (takenOut ((before ++ [(Handler.executor, e)]).map Prod.snd)).map Command.id := by
      by_contra absent
      have silent := (sofar.executor_signs id).1 absent
      rw [eventsOf_append, eventsOf_cons_self, signs_append, signs_cons] at silent
      have nothing := (List.append_eq_nil_iff.mp (List.append_eq_nil_iff.mp silent).2).1
      exact sign (Option.toList_eq_nil_iff.mp nothing)
    obtain ⟨j, foreign, offered⟩ :=
      sofar.offered_of_entered ((sofar.takenOut_prefix.sublist.map Command.id).subset out)
    obtain rfl := h.distinct.across j k id foreign own
    -- So it was sent, and that is the last sign of a submission that was taken.
    obtain ⟨taken, begun, -⟩ := h.submitter_signs own
    rw [eventsOf_append, signs_append] at begun
    have through := Command.eq_submission_of_offered ((List.prefix_append ..).trans begun) offered
    have all := Command.eq_submission_of_offered begun (List.mem_append_left _ offered)
    rw [through] at all
    exact List.append_right_eq_self.mp all

/-! ## Lives -/

/-- Somebody submits what has left the queue. -/
theorem submitted_of_takenOut (h : Handled batches capacity fuel store history s q)
    (own : id ∈ (batches k).map Command.id)
    (out : id ∈ (takenOut (history.map Prod.snd)).map Command.id) :
    signs id (eventsOf (.submitter k) history) = Command.submission true := by
  obtain ⟨j, foreign, offered⟩ :=
    h.offered_of_entered ((h.takenOut_prefix.sublist.map Command.id).subset out)
  obtain rfl := h.distinct.across j k id foreign own
  obtain ⟨taken, begun, -⟩ := h.submitter_signs own
  exact Command.eq_submission_of_offered begun offered

/-- When the executor is through, everything that entered the queue has left it. -/
theorem takenOut_of_offered (h : Handled batches capacity fuel store history s q)
    (through : s.tasks .executor = .done ())
    (offered : .offered true ∈ signs id (eventsOf (.submitter k) history)) :
    id ∈ (takenOut (history.map Prod.snd)).map Command.id := by
  obtain ⟨whole, refused, -, served, -, ended⟩ := h.executor_served
  obtain ⟨left, closing⟩ := served.closes
  rw [← ended through] at closing
  have there : (⟨.closeQueue, left⟩ : Event) ∈ history.map Prod.snd :=
    List.mem_map.mpr ⟨_, mem_eventsOf.mp closing, rfl⟩
  have empty := h.serves.items_of_closed (CommandQueue.ofCapacity_isSound capacity) there
  have fifo := h.serves.fifo
  rw [empty, List.append_nil] at fifo
  obtain ⟨e, he, sign⟩ := List.mem_filterMap.mp offered
  obtain ⟨c, entered, rfl⟩ := entered?_of_sign? sign
  have put : e ∈ history.map Prod.snd := List.mem_map.mpr ⟨_, mem_eventsOf.mp he, rfl⟩
  rw [← fifo]
  exact List.mem_map_of_mem (List.mem_filterMap.mpr ⟨e, put, entered⟩)

/-- The statuses of a command that is submitted are those of a life, and all of them when all are
through. -/
theorem statuses_of_submitted (h : Handled batches capacity fuel store history s q)
    (own : id ∈ (batches k).map Command.id) :
    ∃ flight status, status.isTerminal = true ∧
      statuses id (history.map Prod.snd) <+: Command.life flight status ∧
      ((∀ i, ∃ v, s.tasks i = .done v) →
        statuses id (history.map Prod.snd) = Command.life flight status ∧
          (id ∉ (executed (history.map Prod.snd)).map Command.id →
            status = .failed .executorStopped)) := by
  rw [statuses_eq_signs, h.signs_eq own]
  obtain ⟨silent, serving⟩ := h.executor_signs id
  by_cases out : id ∈ (takenOut (history.map Prod.snd)).map Command.id
  · obtain ⟨course, service, begun, whole, never⟩ := serving out
    obtain ⟨flight, status, terminal, life, failed⟩ := service.life
    rw [h.submitted_of_takenOut own out]
    refine ⟨flight, status, terminal, ?_, fun through => ?_⟩
    · rw [← life]
      exact ((List.prefix_append_right_inj _).mpr begun).filterMap _
    · obtain ⟨_, ended⟩ := through .executor
      rw [whole ended]
      exact ⟨life, fun idle => failed (never idle)⟩
  · obtain ⟨taken, begun, whole⟩ := h.submitter_signs own
    rw [silent out, List.append_nil]
    refine ⟨false, .failed .executorStopped, rfl, ?_, fun through => ?_⟩
    · refine (begun.filterMap Sign.status?).trans ?_
      cases taken with
      | true => exact ⟨[.failed .executorStopped], rfl⟩
      | false => exact List.prefix_refl _
    · obtain ⟨v, ended⟩ := through (.submitter k)
      obtain ⟨_, executorEnded⟩ := through .executor
      rw [whole v ended]
      cases taken with
      | false => exact ⟨rfl, fun _ => rfl⟩
      | true =>
        refine absurd (h.takenOut_of_offered executorEnded (k := k) ?_) out
        rw [whole v ended]
        decide

/-- Of a command that nobody submits nothing is put on the board. -/
theorem statuses_of_foreign (h : Handled batches capacity fuel store history s q)
    (foreign : ∀ k, id ∉ (batches k).map Command.id) :
    statuses id (history.map Prod.snd) = [] := by
  have absent : id ∉ (takenOut (history.map Prod.snd)).map Command.id := by
    intro out
    obtain ⟨k, own, -⟩ :=
      h.offered_of_entered ((h.takenOut_prefix.sublist.map Command.id).subset out)
    exact foreign k own
  have idle := List.filterMap_eq_nil_iff.mp ((h.executor_signs id).1 absent)
  rw [statuses_eq_signs]
  have nothing : signs id (history.map Prod.snd) = [] := by
    refine List.filterMap_eq_nil_iff.mpr fun e he => ?_
    obtain ⟨⟨i, e⟩, member, rfl⟩ := List.mem_map.mp he
    cases i with
    | executor => exact idle e (mem_eventsOf.mpr member)
    | submitter k =>
      by_contra sign
      exact foreign k (h.own_of_sign member sign)
  rw [nothing]
  rfl

/-- Nobody takes outcomes off the board. -/
theorem keeps (h : Handled batches capacity fuel store history s q) :
    ∀ e ∈ history.map Prod.snd, ∀ cutoff, e.step ≠ .discard cutoff := by
  intro e he cutoff discards
  obtain ⟨⟨i, e⟩, member, rfl⟩ := List.mem_map.mp he
  obtain ⟨step, answer⟩ := e
  subst discards
  cases i with
  | executor =>
    rcases h.of_executor member with executing | asking | closing
    · cases executing
    · cases asking
    · cases closing
  | submitter k =>
    rcases h.of_submitter member with executing | ⟨c, -, sending⟩
    · cases executing
    · cases sending

end Handled

/-- Each command is executed at most once, in the order of the queue, and ends.  On the board it is
queued, perhaps in flight, and ended, and nothing after that.  When all submitters and the executor
are through, each command has ended, and one that was never executed has failed. -/
theorem commands_end (distinct : DistinctIds batches)
    (run : Run (fun _ => True) (handling batches fuel store) history s)
    (serves : (CommandQueue.ofCapacity capacity).Serves (history.map Prod.snd) q) (board : Board) :
    (∀ id, ∃ flight status, status.isTerminal = true ∧
        statuses id (history.map Prod.snd) <+: Command.life flight status) ∧
      (executed (history.map Prod.snd) <+: entered (history.map Prod.snd) ∧
        ((executed (history.map Prod.snd)).map Command.id).Nodup ∧
        ∃ whole refused, eventsOf .executor history <+: whole ∧
          Command.Served (executed (history.map Prod.snd)) whole refused) ∧
      ((∀ i, ∃ v, s.tasks i = .done v) → ∀ k, ∀ c ∈ batches k, ∃ status,
        (board.after (history.map Prod.snd)).status? c.id = some status ∧
          status.isTerminal = true ∧
          (c ∉ executed (history.map Prod.snd) → status = .failed .executorStopped)) := by
  have h : Handled batches capacity fuel store history s q := ⟨distinct, run, serves⟩
  obtain ⟨whole, refused, begun, served, out, -⟩ := h.executor_served
  have received : executed (history.map Prod.snd) <+: entered (history.map Prod.snd) :=
    (out ▸ List.prefix_append ..).trans h.takenOut_prefix
  refine ⟨fun id => ?_, ⟨received, h.entered_nodup.sublist (received.sublist.map _), whole, refused,
    begun, served⟩, fun through k c own => ?_⟩
  · by_cases submitted : ∃ k, id ∈ (batches k).map Command.id
    · obtain ⟨k, own⟩ := submitted
      obtain ⟨flight, status, terminal, life, -⟩ := h.statuses_of_submitted own
      exact ⟨flight, status, terminal, life⟩
    · rw [h.statuses_of_foreign fun k own => submitted ⟨k, own⟩]
      exact ⟨false, .acknowledged, rfl, List.nil_prefix⟩
  · obtain ⟨flight, status, terminal, -, ended⟩ :=
      h.statuses_of_submitted (List.mem_map_of_mem own)
    obtain ⟨life, failed⟩ := ended through
    refine ⟨status, ?_, terminal, fun idle => failed fun member => ?_⟩
    · rw [board.status?_after c.id h.keeps, life, Command.life, List.getLast?_concat, Option.some_or]
    · obtain ⟨d, executed, same⟩ := List.mem_map.mp member
      obtain ⟨j, foreign⟩ := h.submitted_of_entered (received.subset executed)
      have one := h.distinct.across j k c.id (same ▸ List.mem_map_of_mem foreign)
        (List.mem_map_of_mem own)
      subst one
      exact idle (List.inj_on_of_nodup_map (distinct.within j) foreign own same ▸ executed)

end

/-! ## Three submitters -/

/-- A channel with one point that takes commands. -/
def desk : Channel :=
  { id := 7, name := "desk", medium := .tcp "192.0.2.7" 502,
    points := [{ id := 1, address := 0, category := .adjustment, type := .uint16 }] }

/-- One command is early, one is waiting when the executor stops, and one comes late. -/
def deskCommand (id : String) : Command := ⟨7, 1, .ofNat 7, id⟩

def deskBatches (k : Fin 3) : List Command := [deskCommand (["early", "waiting", "late"].getD k "")]

def deskAnswer : (step : Step) → step.Answer
  | .send c => c.id ≠ "late"
  | .receive => some (deskCommand "early")
  | .closeQueue => [deskCommand "waiting"]
  | .find _ => some ⟨desk, 0⟩
  | .state _ => .polling
  | _ => default

/-- The executor stops after the first command. -/
def deskTurns : List (Handler (Fin 3)) :=
  List.replicate 3 (.submitter 0) ++ List.replicate 16 .executor ++
    List.replicate 3 (.submitter 1) ++ List.replicate 4 .executor ++
    List.replicate 6 (.submitter 2)

def deskPlay : List (Handler (Fin 3) × Event) × Ensemble (Handler.Value (κ := Fin 3)) :=
  Ensemble.play deskAnswer deskTurns (handling deskBatches 1 {})

theorem desk_commands_end :
    executed (deskPlay.1.map Prod.snd) = [deskCommand "early"] ∧
      ∀ k, ∀ c ∈ deskBatches k, ∃ status,
        (Board.after {} (deskPlay.1.map Prod.snd)).status? c.id = some status ∧
          status.isTerminal = true ∧
          (c ∉ executed (deskPlay.1.map Prod.snd) → status = .failed .executorStopped) := by
  have distinct : DistinctIds deskBatches := by
    have apart : ∀ j k : Fin 3, ["early", "waiting", "late"].getD j "" =
        ["early", "waiting", "late"].getD k "" → j = k := by decide
    refine ⟨by decide, fun j k id own foreign => apart j k ?_⟩
    exact (List.mem_singleton.mp own).symm.trans (List.mem_singleton.mp foreign)
  have run : Run (fun _ => True) (handling deskBatches 1 {}) deskPlay.1 deskPlay.2 :=
    Ensemble.run_play (fun _ => trivial) deskTurns _
  have own : ((CommandQueue.ofCapacity 1).replay? (deskPlay.1.map Prod.snd)).isSome = true := by
    decide +kernel
  obtain ⟨q, served⟩ := Option.isSome_iff_exists.mp own
  have through (i : Handler (Fin 3)) : ∃ v, deskPlay.2.tasks i = .done v := by
    cases i with
    | executor => exact ⟨_, rfl⟩
    | submitter k =>
      match k with
      | 0 => exact ⟨_, rfl⟩
      | 1 => exact ⟨_, rfl⟩
      | 2 => exact ⟨_, rfl⟩
  exact ⟨by decide +kernel,
    (commands_end distinct run (CommandQueue.serves_of_replay? served) {}).2.2 through⟩

end Fieldbus
