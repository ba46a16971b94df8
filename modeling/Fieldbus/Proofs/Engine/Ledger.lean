import Mathlib.Logic.Function.Basic
import Fieldbus.Engine.Reload
import Fieldbus.Proofs.Activity.Trace

/-!
# What an engine leaves behind

The engine's own steps start and stop poll loops, give them plans, and say which channels take
commands.  `Ledger` is what these steps have left, read off the events.  Each of the three things
that the engine does with a channel changes the ledger in one way (`Running.start_cases`,
`Running.replan_cases`, `Running.stop_cases`).

`InStep` says that the ledger is in step with the running channels, and one lemma for each of the
three says that it stays so.
-/

namespace Fieldbus

open Activity (performs_pure)

/-- What the engine's steps have left. -/
structure Ledger where
  /-- The channels that take commands. -/
  registry : Table UInt16 ChannelHandle := {}
  /-- The plan that each poll loop was given last. -/
  plans : Table LinkId Plan := {}
  /-- The links of the poll loops that were started. -/
  started : List LinkId := []
  /-- The links of the poll loops that were cancelled. -/
  cancelled : List LinkId := []

namespace Ledger

def after (l : Ledger) : Event → Ledger
  | ⟨.register h, _⟩ => { l with registry := l.registry.insert h.channel.id h }
  | ⟨.unregister id, _⟩ => { l with registry := l.registry.erase id }
  | ⟨.start _ _ plan, link⟩ =>
    { l with plans := l.plans.insert link plan, started := l.started ++ [link] }
  | ⟨.setPlan link plan, _⟩ => { l with plans := l.plans.insert link plan }
  | ⟨.cancel link, _⟩ => { l with cancelled := l.cancelled ++ [link] }
  | _ => l

/-- The ledger after some more events. -/
def afterAll (l : Ledger) (events : List Event) : Ledger := events.foldl after l

@[simp] theorem afterAll_nil (l : Ledger) : l.afterAll [] = l := rfl

@[simp] theorem afterAll_append (l : Ledger) (earlier later : List Event) :
    l.afterAll (earlier ++ later) = (l.afterAll earlier).afterAll later :=
  List.foldl_append

/-- A channel runs from now on over a new link. -/
def start (l : Ledger) (r : Running) : Ledger :=
  { l with
    registry := l.registry.insert r.channel.id ⟨r.channel, r.link⟩
    plans := l.plans.insert r.link r.plan
    started := l.started ++ [r.link] }

/-- A running channel has got new points under a plan. -/
def replan (l : Ledger) (r : Running) : Ledger :=
  { l with
    registry := l.registry.insert r.channel.id ⟨r.channel, r.link⟩
    plans := l.plans.insert r.link r.plan }

/-- A running channel runs no longer. -/
def stop (l : Ledger) (r : Running) : Ledger :=
  { l with registry := l.registry.erase r.channel.id, cancelled := l.cancelled ++ [r.link] }

theorem not_mem_of_nodup_start {l : Ledger} {r : Running} (h : (l.start r).started.Nodup) :
    r.link ∉ l.started := by
  intro member
  exact (List.nodup_append.mp h).2.2 r.link member r.link List.mem_cons_self rfl

theorem started_after (l : Ledger) (e : Event) : l.started <+: (l.after e).started := by
  obtain ⟨step, answer⟩ := e
  cases step with
  | start _ _ _ => exact List.prefix_append _ _
  | _ => exact List.prefix_rfl

theorem started_afterAll (l : Ledger) (events : List Event) :
    l.started <+: (l.afterAll events).started := by
  induction events generalizing l with
  | nil => exact List.prefix_rfl
  | cons e rest ih => exact (l.started_after e).trans (ih _)

end Ledger

/-! ## Starting, replanning and stopping -/

namespace Running

theorem start_cases {c : Channel} {plan : Plan} {events : List Event}
    {result : Except Defect Running}
    (run : (Running.start c plan).Performs events (.done result)) :
    (∃ fault, ChannelLink.ofChannel c = .error fault ∧ events = [] ∧
        result = .error (.channel c.id (.link fault))) ∨
      ∃ l link, ChannelLink.ofChannel c = .ok l ∧ result = .ok ⟨c, link, plan⟩ ∧
        ∀ ledger : Ledger, ledger.afterAll events = ledger.start ⟨c, link, plan⟩ := by
  unfold Running.start at run
  cases made : ChannelLink.ofChannel c with
  | error fault =>
    rw [made] at run
    obtain ⟨rfl, rfl⟩ := performs_pure.mp run
    exact .inl ⟨fault, rfl, rfl, rfl⟩
  | ok l =>
    rw [made] at run
    obtain _ | run := run
    obtain _ | @⟨_, _, link, _, _, run⟩ := run
    obtain _ | run := run
    obtain ⟨rfl, rfl⟩ := performs_pure.mp run
    exact .inr ⟨l, link, rfl, rfl, fun _ => rfl⟩

theorem replan_cases {r next : Running} {c : Channel} {plan : Plan} {events : List Event}
    (run : (r.replan c plan).Performs events (.done next)) :
    next = ⟨c, r.link, plan⟩ ∧
      ∀ ledger : Ledger, ledger.afterAll events = ledger.replan ⟨c, r.link, plan⟩ := by
  obtain _ | run := run
  obtain _ | run := run
  obtain ⟨rfl, rfl⟩ := performs_pure.mp run
  exact ⟨rfl, fun _ => rfl⟩

theorem stop_cases {r : Running} {isGone : Bool} {events : List Event}
    (run : (r.stop isGone).Performs events (.done ())) (ledger : Ledger) :
    ledger.afterAll events = ledger.stop r := by
  obtain _ | run := run
  obtain _ | run := run
  obtain _ | run := run
  obtain _ | run := run
  obtain _ | run := run
  obtain _ | run := run
  cases isGone with
  | true =>
    obtain _ | run := run
    obtain _ | run := run
    obtain _ | _ := run
    rfl
  | false =>
    obtain ⟨rfl, -⟩ := performs_pure.mp run
    rfl

end Running

/-! ## In step -/

/-- A channel can run: it has a plan and a link. -/
def Channel.CanRun (c : Channel) : Prop :=
  (∃ plan, c.plan = .ok plan) ∧ ∃ l, ChannelLink.ofChannel c = .ok l

/-- What holds of the running channel with an id. -/
structure Running.InStep (r : Running) (id : UInt16) (l : Ledger) : Prop where
  own : r.channel.id = id
  planned : r.channel.plan = .ok r.plan
  linked : ∃ link, ChannelLink.ofChannel r.channel = .ok link
  plans : l.plans.get? r.link = some r.plan
  started : r.link ∈ l.started
  alive : r.link ∉ l.cancelled

/-- The ledger is in step with the running channels, which are given by id. -/
structure InStep (running : UInt16 → Option Running) (l : Ledger) : Prop where
  each : ∀ {id r}, running id = some r → r.InStep id l
  registry : ∀ id, l.registry.get? id = (running id).map fun r => ⟨r.channel, r.link⟩
  apart : ∀ {id id' r r'}, running id = some r → running id' = some r' → r.link = r'.link →
    id = id'
  known : ∀ link ∈ l.cancelled, link ∈ l.started

namespace InStep

open Function (update)

variable {running : UInt16 → Option Running} {l : Ledger}

theorem empty : InStep (fun _ => none) {} where
  each h := by cases h
  registry _ := rfl
  apart h := by cases h
  known _ h := by cases h

theorem own (h : InStep running l) {id : UInt16} {r : Running} (here : running id = some r) :
    r.channel.id = id :=
  (h.each here).own

theorem stop (h : InStep running l) {id : UInt16} {r : Running} (here : running id = some r) :
    InStep (update running id none) (l.stop r) := by
  have own := h.each here
  constructor
  case each =>
    intro other r' there
    by_cases same : other = id
    · simp [same] at there
    · rw [Function.update_of_ne same] at there
      have kept := h.each there
      refine ⟨kept.own, kept.planned, kept.linked, kept.plans, kept.started, fun member => ?_⟩
      rcases List.mem_append.mp member with member | member
      · exact kept.alive member
      · exact same (h.apart there here (List.mem_singleton.mp member))
  case registry =>
    intro other
    rw [Ledger.stop, Table.get?_erase, own.own]
    by_cases same : other = id
    · simp [same]
    · rw [if_neg same, Function.update_of_ne same, h.registry]
  case apart =>
    intro a b r r' first second same
    by_cases ha : a = id
    · simp [ha] at first
    · by_cases hb : b = id
      · simp [hb] at second
      · rw [Function.update_of_ne ha] at first
        rw [Function.update_of_ne hb] at second
        exact h.apart first second same
  case known =>
    intro link member
    rcases List.mem_append.mp member with member | member
    · exact h.known link member
    · rw [List.mem_singleton.mp member]
      exact own.started

/-- A running channel is set at its own id, over a link that no other one has. -/
theorem set (h : InStep running l) {r : Running} {l' : Ledger}
    (own : r.InStep r.channel.id l')
    (registry : l'.registry = l.registry.insert r.channel.id ⟨r.channel, r.link⟩)
    (others : ∀ {id r'}, id ≠ r.channel.id → running id = some r' →
      r'.link ≠ r.link ∧ r'.InStep id l')
    (known : ∀ link ∈ l'.cancelled, link ∈ l'.started) :
    InStep (update running r.channel.id (some r)) l' := by
  -- What is found is the channel that was set, or was there before under another id.
  have there {id : UInt16} {r' : Running}
      (found : update running r.channel.id (some r) id = some r') :
      id = r.channel.id ∧ r' = r ∨ id ≠ r.channel.id ∧ running id = some r' := by
    by_cases same : id = r.channel.id
    · rw [same, Function.update_self] at found
      exact .inl ⟨same, (Option.some.inj found).symm⟩
    · rw [Function.update_of_ne same] at found
      exact .inr ⟨same, found⟩
  constructor
  case each =>
    intro id r' found
    rcases there found with ⟨rfl, rfl⟩ | ⟨other, found⟩
    · exact own
    · exact (others other found).2
  case registry =>
    intro id
    rw [registry, Table.get?_insert]
    by_cases same : id = r.channel.id
    · simp [same]
    · rw [if_neg fun eq => same eq.symm, Function.update_of_ne same, h.registry]
  case apart =>
    intro a b r₁ r₂ first second same
    rcases there first with ⟨rfl, rfl⟩ | ⟨ha, left⟩
    · rcases there second with ⟨rfl, -⟩ | ⟨hb, right⟩
      · rfl
      · exact absurd same.symm (others hb right).1
    · rcases there second with ⟨rfl, rfl⟩ | ⟨hb, right⟩
      · exact absurd same (others ha left).1
      · exact h.apart left right same
  case known => exact known

theorem start (h : InStep running l) {r : Running} (fresh : r.link ∉ l.started)
    (planned : r.channel.plan = .ok r.plan)
    (linked : ∃ link, ChannelLink.ofChannel r.channel = .ok link) :
    InStep (update running r.channel.id (some r)) (l.start r) := by
  refine h.set ⟨rfl, planned, linked, ?_, ?_, ?_⟩ rfl (fun {id r'} _ found => ?_) ?_
  · simp [Ledger.start, Table.get?_insert]
  · simp [Ledger.start]
  · exact fun cancelled => fresh (h.known _ cancelled)
  · have kept := h.each found
    have apart : r'.link ≠ r.link := fun same => fresh (same ▸ kept.started)
    refine ⟨apart, kept.own, kept.planned, kept.linked, ?_, ?_, kept.alive⟩
    · rw [Ledger.start, Table.get?_insert, if_neg apart.symm]
      exact kept.plans
    · exact List.mem_append_left _ kept.started
  · exact fun link cancelled => List.mem_append_left _ (h.known link cancelled)

theorem replan (h : InStep running l) {r old : Running} (here : running r.channel.id = some old)
    (same : r.link = old.link) (planned : r.channel.plan = .ok r.plan)
    (linked : ∃ link, ChannelLink.ofChannel r.channel = .ok link) :
    InStep (update running r.channel.id (some r)) (l.replan r) := by
  have before := h.each here
  refine h.set ⟨rfl, planned, linked, ?_, ?_, ?_⟩ rfl (fun {id r'} other found => ?_) h.known
  · simp [Ledger.replan, Table.get?_insert]
  · rw [same]
    exact before.started
  · rw [same]
    exact before.alive
  · have kept := h.each found
    have apart : r'.link ≠ r.link := fun eq => other (h.apart found here (eq.trans same))
    refine ⟨apart, kept.own, kept.planned, kept.linked, ?_, kept.started, kept.alive⟩
    rw [Ledger.replan, Table.get?_insert, if_neg apart.symm]
    exact kept.plans

end InStep

end Fieldbus
