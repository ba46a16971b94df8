import Fieldbus.Proofs.Command.Signs
import Fieldbus.Proofs.Engine.Ledger
import Fieldbus.Proofs.Poll.Reading

/-!
# The registry in a history

Only an engine says which channels take commands.  Poll loops and executors take none of its steps
(`Poll.run_notEngine`, `Command.serve_notEngine`), so the registry stays what it is as long as the
engine leaves it alone.  `Ledger.Finds` says of a history that each look-up finds what the registry
holds at its time.
-/

namespace Fieldbus

open Activity (Only)

deriving instance DecidableEq for Channel, ChannelHandle

/-! ## The registry in a history -/

/-- Whether a step is one that only an engine takes. -/
def Step.isEngine : Step → Bool
  | .start .. | .setPlan .. | .cancel _ | .join _ | .register _ | .unregister _ | .setPolicy ..
  | .dropPolicy _ | .forget _ => true
  | _ => false

/-- Whether a step changes which channels take commands. -/
def Step.isRegistering : Step → Bool
  | .register _ | .unregister _ => true
  | _ => false

namespace Ledger

theorem registry_after {l : Ledger} {e : Event} (other : e.step.isRegistering = false) :
    (l.after e).registry = l.registry := by
  obtain ⟨step, answer⟩ := e
  cases step with
  | register _ | unregister _ => cases other
  | _ => rfl

theorem registry_afterAll {l : Ledger} {events : List Event}
    (others : ∀ e ∈ events, e.step.isRegistering = false) :
    (l.afterAll events).registry = l.registry := by
  induction events generalizing l with
  | nil => rfl
  | cons e rest ih =>
    have later := ih (l := l.after e) fun x hx => others x (List.mem_cons_of_mem _ hx)
    exact later.trans (registry_after (others e List.mem_cons_self))

/-- Whether an event is a look-up that finds something else than the registry holds. -/
def misleads (l : Ledger) : Event → Bool
  | ⟨.find id, found⟩ => found ≠ l.registry.get? id
  | _ => false

/-- Each look-up finds what the registry holds at its time. -/
def Finds : Ledger → List Event → Prop
  | _, [] => True
  | l, e :: rest => l.misleads e = false ∧ (l.after e).Finds rest

instance decidableFinds : (l : Ledger) → (events : List Event) → Decidable (l.Finds events)
  | _, [] => inferInstanceAs (Decidable True)
  | l, e :: rest =>
    have := decidableFinds (l.after e) rest
    inferInstanceAs (Decidable (_ ∧ _))

theorem Finds.found {l : Ledger} {before after : List Event} {id : UInt16}
    {found : Option ChannelHandle} (h : l.Finds (before ++ ⟨.find id, found⟩ :: after)) :
    found = (l.afterAll before).registry.get? id := by
  induction before generalizing l with
  | nil => simpa [misleads] using h.1
  | cons e rest ih => exact ih h.2

end Ledger

/-! ## Steps of poll loops and executors -/

theorem Step.isEngine_of_isExecuting {s : Step} (executing : s.isExecuting = true) :
    s.isEngine = false := by
  cases s with
  | find _ | state _ | lock _ | write _ _ _ | frames _ | unlock _ | now | clock | log _ | publish _
  | post _ | announce _ => rfl
  | _ => cases executing

theorem Step.isEngine_of_isReading {s : Step} (reading : s.IsReading) : s.isEngine = false := by
  cases s with
  | start _ _ _ | setPlan _ _ | cancel _ | join _ | register _ | unregister _ | setPolicy _ _
  | dropPolicy _ | forget _ => cases reading
  | _ => rfl

namespace Poll

theorem ensureConnected_notEngine {α : Type} (c : Channel) (link : LinkId) (p : Poller α) :
    (ensureConnected c link p).Only fun s => s.isEngine = false := by
  refine .ask_bind rfl fun _ => .ask_bind rfl fun up => ?_
  split
  · exact .ask_bind rfl fun _ => trivial
  · refine .ask_bind rfl fun _ => .ask_bind rfl fun _ => .ask_bind rfl fun result => ?_
    refine .ask_bind rfl fun _ => ?_
    split
    · split
      · exact .ask_bind rfl fun _ => trivial
      · trivial
    · trivial
    · exact .ask_bind rfl fun _ => .ask_bind rfl fun _ => .ask_bind rfl fun _ => trivial

variable {α : Type} [DelayNumber α]

theorem cycle_notEngine (c : Channel) (link : LinkId) (p : Poller α) :
    (cycle c link p).Only fun s => s.isEngine = false := by
  have reading (plan : Plan) : (readPlan c link p plan).Only fun s => s.isEngine = false := by
    unfold readPlan
    split
    next => trivial
    next =>
      refine .bind (ensureConnected_notEngine c link p) fun up => ?_
      cases up with
      | true => exact readBatches_isReading.mono fun _ => Step.isEngine_of_isReading
      | false => trivial
  refine .ask_bind rfl fun plan => .ask_bind rfl fun _ => .bind (reading plan) fun _ => ?_
  exact .ask_bind rfl fun _ => .ask_bind rfl fun _ => .ask_bind rfl fun _ => .ask_bind rfl fun _ =>
    trivial

/-- A poll loop takes none of the engine's steps. -/
theorem run_notEngine (c : Channel) (link : LinkId) (cycles : Nat) (p : Poller α) :
    (run c link cycles p).Only fun s => s.isEngine = false := by
  refine .bind ?_ fun _ => .ask_bind rfl fun _ => trivial
  induction cycles generalizing p with
  | zero => trivial
  | succ cycles ih =>
    refine .ask_bind rfl fun cancelled => ?_
    cases cancelled with
    | true => trivial
    | false =>
      refine .ask_bind rfl fun _ => .bind (cycle_notEngine c link p) fun cycled => ?_
      refine .ask_bind rfl fun cancelled => ?_
      cases cancelled with
      | true => trivial
      | false => exact ih cycled.1

end Poll

namespace Command

theorem serve_notEngine (fuel : Nat) : (serve fuel).Only fun s => s.isEngine = false := by
  refine (serve_only fuel).mono fun s allowed => ?_
  rcases allowed with executing | rfl | rfl
  · exact Step.isEngine_of_isExecuting executing
  · rfl
  · rfl

end Command

theorem Step.isRegistering_of_isEngine {s : Step} (other : s.isEngine = false) :
    s.isRegistering = false := by
  cases s with
  | register _ | unregister _ => cases other
  | _ => rfl

end Fieldbus
