import Fieldbus.Proofs.Activity.Interleaving
import Fieldbus.Proofs.Command.Handle
import Fieldbus.Proofs.Engine.Registry

/-!
# Stopping a channel for good

An engine that stops a channel takes it off the registry, waits for its poll loop, closes its link
and forgets its values.  The executor holds no lock while it looks a channel up, so it may have
found the channel before and write over the link afterwards, which opens it again.

`stop_silences` says how much that is: of the whole executor only the one command that was under
way when the channel was taken off the registry.  So there is at most one request over the link
after the stop, and at most one value in the store, which this request acknowledged.
`removed_not_silent` is such a run.
-/

namespace Fieldbus

open Activity (Only Performs ask)
open Ensemble (Run eventsOf mem_eventsOf eventsOf_append eventsOf_cons_self touches)

namespace Running

/-- What is done to stop a channel for good. -/
theorem stop_events {r : Running} {events : List Event}
    (run : (r.stop true).Performs events (.done ())) :
    events = [⟨.unregister r.channel.id, ()⟩, ⟨.cancel r.link, ()⟩] ++ ⟨.join r.link, ()⟩ ::
      [⟨.lock r.link, ()⟩, ⟨.close r.link, ()⟩, ⟨.unlock r.link, ()⟩,
        ⟨.dropPolicy r.channel.id, ()⟩, ⟨.forget r.channel.id, ()⟩] := by
  obtain _ | run := run
  obtain _ | run := run
  obtain _ | run := run
  obtain _ | run := run
  obtain _ | run := run
  obtain _ | run := run
  obtain _ | run := run
  obtain _ | run := run
  obtain _ | _ := run
  rfl

end Running

/-- At most one element satisfies `P` if none does before one that does. -/
theorem length_filter_le_one {β : Type} {P : β → Bool} {l : List β}
    (first : ∀ u x v, l = u ++ x :: v → P x = true → ∀ y ∈ u, P y = false) :
    (l.filter P).length ≤ 1 := by
  induction l with
  | nil => simp
  | cons x rest ih =>
    cases own : P x with
    | false =>
      rw [List.filter_cons_of_neg (by simp [own])]
      exact ih fun u y v split given z hz =>
        first (x :: u) y v (by rw [split, List.cons_append]) given z (List.mem_cons_of_mem _ hz)
    | true =>
      have none : rest.filter P = [] := by
        refine List.filter_eq_nil_iff.mpr fun y hy given => ?_
        obtain ⟨u, v, rfl⟩ := List.append_of_mem hy
        have earlier := first (x :: u) y v rfl given x List.mem_cons_self
        rw [own] at earlier
        cases earlier
      rw [List.filter_cons_of_pos own, none]
      exact Nat.le_refl 1

/-! ## Who takes part -/

/-- Those who take part when a channel is stopped. -/
inductive StopParty where
  | poller
  | executor
  | engine
deriving DecidableEq

/-- What the activity of a party ends with. -/
@[reducible] def StopParty.Value (α : Type) : StopParty → Type
  | .poller => Poll.Poller α
  | .executor | .engine => Unit

/-- Whether an event is a request over a link. -/
def Event.isRequestOver (link : LinkId) (e : Event) : Bool :=
  match e.step with
  | .read l _ | .write l _ _ => l = link
  | _ => false

/-! ## The registry while it is stopped -/

section

variable {α : Type} {r : Running} {fuel : Nat} {ledger : Ledger}
  {earlier tail t u : List (StopParty × Event)} {start s : Ensemble (StopParty.Value α)}

/-- The run once more, cut where the channel is taken off the registry. -/
structure Cut (r : Running) (fuel : Nat) (ledger : Ledger)
    (earlier tail : List (StopParty × Event)) (start s : Ensemble (StopParty.Value α)) : Prop where
  registered : ∀ id h, ledger.registry.get? id = some h →
    h.channel.id = id ∧ (h.link = r.link ↔ id = r.channel.id)
  finds : ledger.Finds
    ((earlier ++ (.engine, ⟨.unregister r.channel.id, ()⟩) :: tail).map Prod.snd)
  steady : ∀ e ∈ earlier ++ tail, e.2.step.isRegistering = false
  executor : start.tasks .executor = Command.serve fuel
  run : Run (fun _ => True) start (earlier ++ (.engine, ⟨.unregister r.channel.id, ()⟩) :: tail) s

namespace Cut

/-- What was found before is what was registered. -/
theorem found_earlier (h : Cut r fuel ledger earlier tail start s) {i : StopParty} {id : UInt16}
    {handle : ChannelHandle} {u w : List (StopParty × Event)}
    (split : earlier = u ++ (i, ⟨.find id, some handle⟩) :: w) :
    handle.channel.id = id ∧ (handle.link = r.link ↔ id = r.channel.id) := by
  have finds := h.finds
  rw [split, List.append_assoc, List.map_append, List.cons_append, List.map_cons] at finds
  have found := finds.found
  rw [Ledger.registry_afterAll] at found
  · exact h.registered id handle found.symm
  · intro e he
    obtain ⟨x, hx, rfl⟩ := List.mem_map.mp he
    refine h.steady x (List.mem_append_left _ ?_)
    rw [split]
    exact List.mem_append_left _ hx

/-- What is found afterwards is not the channel, and not over its link. -/
theorem found_later (h : Cut r fuel ledger earlier tail start s) {i : StopParty} {id : UInt16}
    {handle : ChannelHandle} {u w : List (StopParty × Event)}
    (split : tail = u ++ (i, ⟨.find id, some handle⟩) :: w) :
    handle.channel.id ≠ r.channel.id ∧ handle.link ≠ r.link := by
  have finds := h.finds
  rw [split, List.append_cons, ← List.append_assoc, List.map_append, List.map_cons] at finds
  have found := finds.found
  have quiet : ∀ e ∈ u.map Prod.snd, e.step.isRegistering = false := by
    intro e he
    obtain ⟨x, hx, rfl⟩ := List.mem_map.mp he
    refine h.steady x (List.mem_append_right _ ?_)
    rw [split]
    exact List.mem_append_left _ hx
  have steady : ∀ e ∈ earlier.map Prod.snd, e.step.isRegistering = false := by
    intro e he
    obtain ⟨x, hx, rfl⟩ := List.mem_map.mp he
    exact h.steady x (List.mem_append_left _ hx)
  rw [List.map_append, Ledger.afterAll_append, Ledger.registry_afterAll quiet, List.map_append,
    Ledger.afterAll_append] at found
  change some handle = ((ledger.afterAll (earlier.map Prod.snd)).registry.erase r.channel.id).get? id
    at found
  rw [Ledger.registry_afterAll steady, Table.get?_erase] at found
  split at found
  next => cases found
  next other =>
    obtain ⟨own, unique⟩ := h.registered id handle found.symm
    exact ⟨fun same => other (own.symm.trans same), fun linked => other (unique.mp linked)⟩

/-- What the executor does under a handle of the channel goes back to a look-up before. -/
theorem caught (h : Cut r fuel ledger earlier tail start s) (split : t <+: tail) {id : UInt16}
    {handle : ChannelHandle} {b since : List Event}
    (past : eventsOf .executor (earlier ++ (.engine, ⟨.unregister r.channel.id, ()⟩) :: t) =
      b ++ ⟨.find id, some handle⟩ :: since)
    (own : handle.link = r.link ∨ handle.channel.id = r.channel.id) :
    handle.channel.id = r.channel.id ∧ handle.link = r.link ∧ id = r.channel.id ∧
      ∃ begun, eventsOf .executor earlier = b ++ ⟨.find id, some handle⟩ :: begun ∧
        since = begun ++ eventsOf .executor t := by
  rw [eventsOf_append, Ensemble.eventsOf_cons_ne (by decide)] at past
  rcases Activity.cut_of_append_eq past with ⟨rest, later⟩ | ⟨begun, earlier, rfl⟩
  · obtain ⟨u, w, rfl, -, -⟩ := Ensemble.split_of_eventsOf later
    obtain ⟨v, rfl⟩ := split
    have split : u ++ (.executor, ⟨.find id, some handle⟩) :: w ++ v =
        u ++ (.executor, ⟨.find id, some handle⟩) :: (w ++ v) := by simp
    have found := h.found_later split
    rcases own with linked | same
    · exact absurd linked found.2
    · exact absurd same found.1
  · obtain ⟨u, w, split, -, -⟩ := Ensemble.split_of_eventsOf earlier
    obtain ⟨registered, linked⟩ := h.found_earlier split
    have same : id = r.channel.id := by
      rcases own with own | own
      · exact linked.mp own
      · exact registered.symm.trans own
    exact ⟨registered.trans same, linked.mpr same, same, begun, earlier, rfl⟩

theorem bound (h : Cut r fuel ledger earlier tail start s) {e : Event}
    (split : tail = t ++ (.executor, e) :: u) :
    Command.Bound (eventsOf .executor (earlier ++ (.engine, ⟨.unregister r.channel.id, ()⟩) :: t))
      e := by
  have run := h.run
  rw [split, ← List.cons_append, ← List.append_assoc] at run
  have ensured : (start.tasks .executor).Ensures ⟨fun _ => True, Command.Bound⟩
      (fun _ _ => True) [] := by
    rw [h.executor]
    exact Command.serve_bound fuel []
  exact run.may ensured

/-- A write over the link afterwards is that of the command under way. -/
theorem write_caught (h : Cut r fuel ledger earlier tail start s) {p : Point}
    {words : List UInt16} {answer : Except Fault Unit}
    (split : tail = t ++ (.executor, ⟨.write r.link p words, answer⟩) :: u) :
    Command.UnderWay r.channel.id (eventsOf .executor earlier) ∧
      ∀ x ∈ eventsOf .executor t, x.step.isMinor = true := by
  obtain ⟨handle, b, id, ⟨prepared, past, quiet⟩, linked⟩ := h.bound split
  obtain ⟨-, -, rfl, begun, found, rfl⟩ := h.caught ⟨_, split.symm⟩ past (.inl linked)
  refine ⟨⟨handle, b, begun, found, fun x hx => ?_⟩, fun x hx => ?_⟩
  · exact Step.isWithin_of_isMinor (quiet x (List.mem_append_left _ hx))
  · exact quiet x (List.mem_append_right _ hx)

/-- A value of the channel that is published afterwards was acknowledged to the command under way. -/
theorem publish_caught (h : Cut r fuel ledger earlier tail start s) {writes : List StoreWrite}
    {key : StoreKey} (own : key.channel = r.channel.id)
    (touched : touches key (.publish writes) = true)
    (split : tail = t ++ (.executor, ⟨.publish writes, ()⟩) :: u) :
    Command.UnderWay r.channel.id (eventsOf .executor earlier) ∧
      (∀ x ∈ eventsOf .executor t, x.step.isWithin = true) ∧
      ∃ p words commanded, key = ⟨r.channel.id, p.category, p.id⟩ ∧
        writes = [ackWrite r.channel.id p (p.acknowledged words commanded)] ∧
        (.executor, ⟨.write r.link p words, .ok ()⟩) ∈
          earlier ++ (.engine, ⟨.unregister r.channel.id, ()⟩) :: tail := by
  obtain ⟨handle, p, words, commanded, ⟨b, id, prepared, reported, past, before, behind⟩, rfl⟩ :=
    h.bound split
  have key : (⟨handle.channel.id, p.category, p.id⟩ : StoreKey) = key := by
    by_contra other
    simp [touches, valueOf?_ackWrite, other] at touched
  subst key
  obtain ⟨same, linked, rfl, begun, found, whole⟩ := h.caught ⟨_, split.symm⟩ past (.inr own)
  have within : ∀ x ∈ prepared ++ ⟨.write handle.link p words, .ok ()⟩ :: reported,
      x.step.isWithin = true := by
    intro x hx
    rcases List.mem_append.mp hx with hx | hx
    · exact Step.isWithin_of_isMinor (before x hx)
    · rcases List.mem_cons.mp hx with rfl | hx
      · rfl
      · exact Step.isWithin_of_isMinor (behind x hx)
  rw [whole] at within
  refine ⟨⟨handle, b, begun, found, fun x hx => within x (List.mem_append_left _ hx)⟩,
    fun x hx => within x (List.mem_append_right _ hx), p, words, commanded, by rw [same],
    by rw [same], ?_⟩
  rw [← linked, split, ← List.cons_append, ← List.append_assoc]
  refine List.mem_append_left _ (mem_eventsOf.mp ?_)
  rw [past]
  simp

/-- After a publication none follows for the channel. -/
theorem published_last (h : Cut r fuel ledger earlier tail start s)
    {writes writes' : List StoreWrite} {key : StoreKey} (own : key.channel = r.channel.id)
    {w : List (StopParty × Event)}
    (split : tail = t ++ (.executor, ⟨.publish writes, ()⟩) ::
      (u ++ (.executor, ⟨.publish writes', ()⟩) :: w)) : touches key (.publish writes') = false := by
  by_contra touched
  have place : tail = (t ++ (.executor, ⟨.publish writes, ()⟩) :: u) ++
      (.executor, ⟨.publish writes', ()⟩) :: w := by simp [split]
  obtain ⟨-, within, -⟩ := h.publish_caught own (by simpa using touched) place
  have quiet := within ⟨.publish writes, ()⟩ (by simp)
  cases quiet

/-- At most one publication for the channel follows. -/
theorem publication_cases (h : Cut r fuel ledger earlier tail start s)
    {back since : List (StopParty × Event)} (place : tail = back ++ since)
    (published : ∀ e ∈ since, ∀ key, touches key e.2.step = true →
      ∃ writes, e = (.executor, ⟨.publish writes, ()⟩)) :
    (∀ e ∈ since, ∀ key : StoreKey, key.channel = r.channel.id → touches key e.2.step = false) ∨
      Command.UnderWay r.channel.id (eventsOf .executor earlier) ∧
        ∃ t u p words commanded,
          since = t ++ (.executor,
            ⟨.publish [ackWrite r.channel.id p (p.acknowledged words commanded)], ()⟩) :: u ∧
          (.executor, ⟨.write r.link p words, .ok ()⟩) ∈
            earlier ++ (.engine, ⟨.unregister r.channel.id, ()⟩) :: tail ∧
          ∀ x ∈ t ++ u, ∀ key : StoreKey, key.channel = r.channel.id →
            touches key x.2.step = false := by
  by_cases silent : ∀ e ∈ since, ∀ key : StoreKey, key.channel = r.channel.id →
      touches key e.2.step = false
  · exact .inl silent
  · push Not at silent
    obtain ⟨e, he, key, own, touched⟩ := silent
    replace touched : touches key e.2.step = true := by simpa using touched
    obtain ⟨writes, rfl⟩ := published e he key touched
    obtain ⟨t, u, rfl⟩ := List.append_of_mem he
    rw [← List.append_assoc] at place
    obtain ⟨begun, -, p, words, commanded, rfl, rfl, written⟩ := h.publish_caught own touched place
    refine .inr ⟨begun, t, u, p, words, commanded, rfl, written, fun x hx key foreign => ?_⟩
    by_contra other
    have again : touches key x.2.step = true := by simpa using other
    rcases List.mem_append.mp hx with hx | hx
    · obtain ⟨writes, rfl⟩ := published x (List.mem_append_left _ hx) key again
      obtain ⟨v, w, rfl⟩ := List.append_of_mem hx
      rw [← List.append_assoc, List.append_assoc, List.cons_append] at place
      rw [h.published_last own place] at touched
      cases touched
    · obtain ⟨writes, rfl⟩ :=
        published x (List.mem_append_right _ (List.mem_cons_of_mem _ hx)) key again
      obtain ⟨v, w, rfl⟩ := List.append_of_mem hx
      exact other (h.published_last foreign place)

end Cut

end

/-! ## A channel that is stopped -/

section

variable {α : Type} [DelayNumber α] {r : Running} {cycles fuel : Nat} {p : Poll.Poller α}
  {store : Store} {ledger : Ledger} {before closing after : List (StopParty × Event)}
  {s : Ensemble (StopParty.Value α)}

/-- A channel that is running and an engine that is going to stop it for good. -/
def stopping (r : Running) (cycles : Nat) (p : Poll.Poller α) (fuel : Nat) (store : Store) :
    Ensemble (StopParty.Value α) :=
  { tasks := fun
      | .poller => Poll.run r.channel r.link cycles p
      | .executor => Command.serve fuel
      | .engine => r.stop true
    store }

/-- The join of the poll loop, at which the engine waits for its end. -/
def joined (r : Running) : StopParty × Event := (.engine, ⟨.join r.link, ()⟩)

/-- A run in which the channel is stopped: up to the join, up to the end of the stop, and on. -/
structure Stopped (r : Running) (cycles fuel : Nat) (p : Poll.Poller α) (store : Store)
    (ledger : Ledger) (before closing after : List (StopParty × Event))
    (s : Ensemble (StopParty.Value α)) : Prop where
  /-- Channels are registered under their ids, and no other one with this link. -/
  registered : ∀ id h, ledger.registry.get? id = some h →
    h.channel.id = id ∧ (h.link = r.link ↔ id = r.channel.id)
  finds : ledger.Finds ((before ++ joined r :: closing ++ after).map Prod.snd)
  run : ∃ m m', Run (fun _ => True) (stopping r cycles p fuel store) before m ∧
    (∃ v, m.tasks .poller = .done v) ∧ Run (fun _ => True) m (joined r :: closing) m' ∧
    m'.tasks .engine = .done () ∧ Run (fun _ => True) m' after s

namespace Stopped

/-- The engine's steps, and where they stand. -/
theorem engine_events (h : Stopped r cycles fuel p store ledger before closing after s) :
    eventsOf .engine before = [⟨.unregister r.channel.id, ()⟩, ⟨.cancel r.link, ()⟩] ∧
      eventsOf .engine closing =
        [⟨.lock r.link, ()⟩, ⟨.close r.link, ()⟩, ⟨.unlock r.link, ()⟩,
          ⟨.dropPolicy r.channel.id, ()⟩, ⟨.forget r.channel.id, ()⟩] ∧
      eventsOf .engine after = [] := by
  obtain ⟨m, m', first, -, second, returned, third⟩ := h.run
  have whole := (first.append second).performs .engine
  rw [returned, eventsOf_append, joined, eventsOf_cons_self] at whole
  have shape := (Running.stop_events whole).symm
  obtain ⟨earlier, -, later⟩ := (List.append_cons_inj_of_notMem (by simp) (by simp)).mp shape
  exact ⟨earlier.symm, later.symm, (third.eventsOf_of_done returned).1⟩

/-- The poll loop takes no step after it was joined. -/
theorem poller_events (h : Stopped r cycles fuel p store ledger before closing after s) :
    eventsOf .poller closing = [] ∧ eventsOf .poller after = [] := by
  obtain ⟨m, m', -, ⟨v, through⟩, second, -, third⟩ := h.run
  obtain ⟨none, still⟩ := second.eventsOf_of_done through
  refine ⟨?_, (third.eventsOf_of_done still).1⟩
  rwa [joined, Ensemble.eventsOf_cons_ne (by decide)] at none

theorem run_whole (h : Stopped r cycles fuel p store ledger before closing after s) :
    Run (fun _ => True) (stopping r cycles p fuel store)
      (before ++ joined r :: closing ++ after) s := by
  obtain ⟨m, m', first, -, second, -, third⟩ := h.run
  exact (first.append second).append third

/-- After the channel was forgotten all steps are the executor's. -/
theorem forgotten (h : Stopped r cycles fuel p store ledger before closing after s) :
    ∃ closed rest m, closing = closed ++ (.engine, ⟨.forget r.channel.id, ()⟩) :: rest ∧
      (∀ e ∈ rest ++ after, e.1 = .executor) ∧
      (∀ key, key.channel = r.channel.id → m.store.get? key = none) ∧
      Run (fun _ => True) m (rest ++ after) s := by
  obtain ⟨-, closes, still⟩ := h.engine_events
  obtain ⟨quiet, silent⟩ := h.poller_events
  have last : eventsOf .engine closing = [⟨.lock r.link, ()⟩, ⟨.close r.link, ()⟩,
      ⟨.unlock r.link, ()⟩, ⟨.dropPolicy r.channel.id, ()⟩] ++
        ⟨.forget r.channel.id, ()⟩ :: [] := closes
  obtain ⟨closed, rest, rfl, -, through⟩ := Ensemble.split_of_eventsOf last
  have run := h.run_whole
  rw [List.append_assoc, List.cons_append, List.append_assoc, List.cons_append, ← List.cons_append,
    ← List.append_assoc] at run
  obtain ⟨m, clear, run⟩ := run.of_forget
  refine ⟨closed, rest, m, rfl, ?_, clear, run⟩
  rw [eventsOf_append, Ensemble.eventsOf_cons_ne (by decide), List.append_eq_nil_iff] at quiet
  rintro ⟨i, e⟩ member
  have own := mem_eventsOf.mpr member
  rw [eventsOf_append] at own
  cases i with
  | executor => rfl
  | poller =>
    rw [quiet.2, silent] at own
    exact absurd own List.not_mem_nil
  | engine =>
    rw [through, still] at own
    exact absurd own List.not_mem_nil

theorem notEngine (h : Stopped r cycles fuel p store ledger before closing after s)
    {e : StopParty × Event} (member : e ∈ before ++ joined r :: closing ++ after)
    (other : e.1 ≠ .engine) : e.2.step.isEngine = false := by
  obtain ⟨i, e⟩ := e
  have own := mem_eventsOf.mpr member
  have performs := h.run_whole.performs i
  cases i with
  | engine => exact absurd rfl other
  | poller => exact (Poll.run_notEngine ..).of_performs performs e own
  | executor => exact (Command.serve_notEngine fuel).of_performs performs e own

/-- The channel is taken off the registry before its poll loop is joined. -/
theorem cut (h : Stopped r cycles fuel p store ledger before closing after s) :
    ∃ earlier later, before = earlier ++ (.engine, ⟨.unregister r.channel.id, ()⟩) :: later ∧
      Cut r fuel ledger earlier (later ++ joined r :: closing ++ after)
        (stopping r cycles p fuel store) s := by
  obtain ⟨begun, closed, still⟩ := h.engine_events
  have begun : eventsOf .engine before =
      [] ++ ⟨.unregister r.channel.id, ()⟩ :: [⟨.cancel r.link, ()⟩] := begun
  obtain ⟨earlier, later, rfl, none, rest⟩ := Ensemble.split_of_eventsOf begun
  refine ⟨earlier, later, rfl, h.registered, by simpa using h.finds, ?_, rfl,
    by simpa using h.run_whole⟩
  rintro ⟨i, e⟩ member
  by_cases engine : i = .engine
  · subst engine
    have own := mem_eventsOf.mpr member
    simp only [eventsOf_append, joined, eventsOf_cons_self, none, rest, closed, still] at own
    simp only [List.nil_append, List.append_nil, List.cons_append, List.mem_cons,
      List.not_mem_nil, or_false] at own
    rcases own with rfl | rfl | rfl | rfl | rfl | rfl | rfl
    all_goals rfl
  · refine Step.isRegistering_of_isEngine (h.notEngine (e := (i, e)) ?_ engine)
    simp only [List.mem_append, List.mem_cons] at member ⊢
    tauto

/-- An executor makes no request but a write. -/
theorem write_of_request (h : Stopped r cycles fuel p store ledger before closing after s)
    {e : Event} (member : (.executor, e) ∈ before ++ joined r :: closing ++ after)
    (request : e.isRequestOver r.link = true) :
    ∃ point words answer, e = ⟨.write r.link point words, answer⟩ := by
  obtain ⟨step, answer⟩ := e
  cases step with
  | write link point words =>
    obtain rfl : link = r.link := by simpa [Event.isRequestOver] using request
    exact ⟨point, words, answer, rfl⟩
  | read link batch =>
    have own := mem_eventsOf.mpr member
    have allowed := (Command.serve_only fuel).of_performs (h.run_whole.performs .executor) _ own
    rcases allowed with executing | asks | closes
    · cases executing
    · cases asks
    · cases closes
  | _ => cases request

/-- A step of the executor that changes what is stored of the channel is a publication. -/
theorem publish_of_touches (h : Stopped r cycles fuel p store ledger before closing after s)
    {key : StoreKey} {e : Event} (member : (.executor, e) ∈ before ++ joined r :: closing ++ after)
    (touched : touches key e.step = true) : ∃ writes, e = ⟨.publish writes, ()⟩ := by
  have other := h.notEngine member (by simp)
  obtain ⟨step, answer⟩ := e
  cases step with
  | publish writes => exact ⟨writes, rfl⟩
  | forget _ => cases other
  | _ => cases touched

variable {earlier later : List (StopParty × Event)}

/-- After the stop there is at most one request over the link, and none if nothing was under way. -/
theorem request_caught (h : Stopped r cycles fuel p store ledger before closing after s)
    (cut : Cut r fuel ledger earlier (later ++ joined r :: closing ++ after)
      (stopping r cycles p fuel store) s)
    {t u : List (StopParty × Event)} {e : StopParty × Event} (at_e : after = t ++ e :: u)
    (request : e.2.isRequestOver r.link = true) :
    Command.UnderWay r.channel.id (eventsOf .executor earlier) ∧
      ∀ x ∈ t, x.2.isRequestOver r.link = false := by
  have executors : ∀ x ∈ after, x.1 = .executor := by
    obtain ⟨closed, rest, m, -, executors, -⟩ := h.forgotten
    exact fun x hx => executors x (List.mem_append_right _ hx)
  have within {x : StopParty × Event} (hx : x ∈ after) :
      (.executor, x.2) ∈ before ++ joined r :: closing ++ after := by
    rw [← executors x hx]
    exact List.mem_append_right _ hx
  have member : e ∈ after := by simp [at_e]
  obtain ⟨point, words, answer, own⟩ := h.write_of_request (within member) request
  have place : later ++ joined r :: closing ++ after =
      (later ++ joined r :: closing ++ t) ++ (.executor, ⟨.write r.link point words, answer⟩) :: u := by
    rw [← own, ← executors e member, at_e, List.append_assoc _ t]
  obtain ⟨begun, minor⟩ := cut.write_caught place
  refine ⟨begun, fun x hx => ?_⟩
  by_contra asked
  have hx' : x ∈ after := by simp [at_e, hx]
  obtain ⟨point, words, answer, write⟩ := h.write_of_request (within hx') (by simpa using asked)
  have quiet := minor x.2 (mem_eventsOf.mpr (List.mem_append_right _ (by rwa [← executors x hx'])))
  rw [write] at quiet
  cases quiet

/-- After the stop at most one value of the channel is stored, and none if nothing was under way. -/
theorem stored (h : Stopped r cycles fuel p store ledger before closing after s)
    (cut : Cut r fuel ledger earlier (later ++ joined r :: closing ++ after)
      (stopping r cycles p fuel store) s)
    (split : before = earlier ++ (.engine, ⟨.unregister r.channel.id, ()⟩) :: later) :
    (∀ key, key.channel = r.channel.id → s.store.get? key = none) ∨
      Command.UnderWay r.channel.id (eventsOf .executor earlier) ∧
        ∃ point words commanded time,
          (.executor, ⟨.write r.link point words, .ok ()⟩) ∈
            before ++ joined r :: closing ++ after ∧
          ∀ key, key.channel = r.channel.id → s.store.get? key =
            if (⟨r.channel.id, point.category, point.id⟩ : StoreKey) = key then
              some ⟨point.acknowledged words commanded, time⟩
            else none := by
  obtain ⟨closed, rest, m, rfl, executors, clear, run⟩ := h.forgotten
  have place : later ++ joined r :: (closed ++ (.engine, ⟨.forget r.channel.id, ()⟩) :: rest) ++
      after = (later ++ joined r :: closed ++ [(.engine, ⟨.forget r.channel.id, ()⟩)]) ++
        (rest ++ after) := by simp
  have whole : before ++ joined r :: (closed ++ (.engine, ⟨.forget r.channel.id, ()⟩) :: rest) ++
      after = earlier ++ (.engine, ⟨.unregister r.channel.id, ()⟩) :: (later ++ joined r ::
        (closed ++ (.engine, ⟨.forget r.channel.id, ()⟩) :: rest) ++ after) := by simp [split]
  have published : ∀ e ∈ rest ++ after, ∀ key, touches key e.2.step = true →
      ∃ writes, e = (.executor, ⟨.publish writes, ()⟩) := by
    rintro ⟨i, e⟩ he key touched
    obtain rfl : i = .executor := executors _ he
    have member := List.mem_cons_of_mem (.engine, ⟨.unregister r.channel.id, ()⟩)
      (List.mem_append_right (later ++ joined r :: closed ++
        [(.engine, ⟨.forget r.channel.id, ()⟩)]) he)
    rw [← place] at member
    obtain ⟨writes, rfl⟩ := h.publish_of_touches
      (whole ▸ List.mem_append_right earlier member) touched
    exact ⟨writes, rfl⟩
  rcases cut.publication_cases place published with
    silent | ⟨begun, t, u, point, words, commanded, at_e, written, alone⟩
  · refine .inl fun key own => ?_
    rw [run.get?_of_touches fun e he => silent e he key own]
    exact clear key own
  · rw [at_e] at run
    obtain ⟨time, shown⟩ := run.get?_publish
    refine .inr ⟨begun, point, words, commanded, time, whole ▸ written, fun key own => ?_⟩
    rw [shown key fun x hx => alone x hx key own, clear key own, valueOf?_ackWrite]
    split <;> rfl

end Stopped

/-- After a channel was stopped for good only the executor goes on.  It makes at most one request
over the link, and nothing is stored of the channel but at most one value, which a write over the
link has set.  Neither is there unless a command was under way when the channel was taken off the
registry. -/
theorem stop_silences {m m' : Ensemble (StopParty.Value α)}
    (registered : ∀ id h, ledger.registry.get? id = some h →
      h.channel.id = id ∧ (h.link = r.link ↔ id = r.channel.id))
    (finds : ledger.Finds ((before ++ joined r :: closing ++ after).map Prod.snd))
    (first : Run (fun _ => True) (stopping r cycles p fuel store) before m)
    (through : ∃ v, m.tasks .poller = .done v)
    (second : Run (fun _ => True) m (joined r :: closing) m')
    (returned : m'.tasks .engine = .done ())
    (third : Run (fun _ => True) m' after s) :
    (∀ e ∈ after, e.1 = .executor) ∧
      (after.filter fun e => e.2.isRequestOver r.link).length ≤ 1 ∧
      ((∀ key, key.channel = r.channel.id → s.store.get? key = none) ∨
        ∃ point words commanded time,
          (.executor, ⟨.write r.link point words, .ok ()⟩) ∈
            before ++ joined r :: closing ++ after ∧
          ∀ key, key.channel = r.channel.id → s.store.get? key =
            if (⟨r.channel.id, point.category, point.id⟩ : StoreKey) = key then
              some ⟨point.acknowledged words commanded, time⟩
            else none) ∧
      ∃ earlier later, before = earlier ++ (.engine, ⟨.unregister r.channel.id, ()⟩) :: later ∧
        (¬ Command.UnderWay r.channel.id (eventsOf .executor earlier) →
          (∀ e ∈ after, e.2.isRequestOver r.link = false) ∧
            ∀ key, key.channel = r.channel.id → s.store.get? key = none) := by
  have h : Stopped r cycles fuel p store ledger before closing after s :=
    ⟨registered, finds, m, m', first, through, second, returned, third⟩
  obtain ⟨closed, rest, -, -, executors, -⟩ := h.forgotten
  obtain ⟨earlier, later, split, cut⟩ := h.cut
  refine ⟨fun e he => executors e (List.mem_append_right _ he), ?_, ?_, earlier, later, split,
    fun idle => ⟨fun e he => ?_, ?_⟩⟩
  · exact length_filter_le_one fun u x v at_x asked => (h.request_caught cut at_x asked).2
  · exact (h.stored cut split).imp_right And.right
  · by_contra asked
    obtain ⟨t, u, at_e⟩ := List.append_of_mem he
    exact idle (h.request_caught cut at_e (by simpa using asked)).1
  · exact (h.stored cut split).resolve_right fun kept => idle kept.1

end

/-! ## A command under way -/

/-- A channel with one point that takes commands. -/
def valve : Channel :=
  { id := 7, name := "valve", medium := .tcp "192.0.2.7" 502,
    points := [{ id := 1, address := 0, category := .adjustment, type := .uint16 }] }

def valveRunning : Running := ⟨valve, 0, {}⟩

def valveAnswer : (step : Step) → step.Answer
  | .receive => some ⟨7, 1, .ofNat 7, "open"⟩
  | .find _ => some ⟨valve, 0⟩
  | .state _ => .polling
  | _ => default

/-- The valve takes commands. -/
def valveLedger : Ledger := ({} : Ledger).after ⟨.register ⟨valve, 0⟩, ()⟩

/-- The executor finds the valve, and then the engine stops it. -/
def valveBefore : List (StopParty × Event) × Ensemble (StopParty.Value Binary64) :=
  Ensemble.play valveAnswer
    [.executor, .executor, .executor, .engine, .engine, .poller]
    (stopping valveRunning 0 (.ofChannel valve (.ofNat 2)) 1 {})

def valveClosing : List (StopParty × Event) × Ensemble (StopParty.Value Binary64) :=
  Ensemble.play valveAnswer (List.replicate 6 .engine) valveBefore.2

/-- The executor goes on. -/
def valveAfter : List (StopParty × Event) × Ensemble (StopParty.Value Binary64) :=
  Ensemble.play valveAnswer (List.replicate 16 .executor) valveClosing.2

theorem valve_closing : valveClosing.1 = joined valveRunning :: valveClosing.1.tail := rfl

theorem valve_finds : valveLedger.Finds
    ((valveBefore.1 ++ joined valveRunning :: valveClosing.1.tail ++ valveAfter.1).map Prod.snd) := by
  decide +kernel

theorem valve_registered : ∀ id h, valveLedger.registry.get? id = some h →
    h.channel.id = id ∧ (h.link = valveRunning.link ↔ id = valveRunning.channel.id) := by
  intro id h found
  simp [valveLedger, Ledger.after, Table.get?_insert] at found
  obtain ⟨rfl, rfl⟩ := found
  simp [valveRunning]

theorem valve_stop_silences :
    (∀ e ∈ valveAfter.1, e.1 = .executor) ∧
      (valveAfter.1.filter fun e => e.2.isRequestOver 0).length ≤ 1 := by
  have silent := stop_silences valve_registered valve_finds
    (Ensemble.run_play (fun _ => trivial) _ _) ⟨_, rfl⟩
    (valve_closing ▸ Ensemble.run_play (fun _ => trivial) _ _) rfl
    (Ensemble.run_play (fun _ => trivial) _ _)
  exact ⟨silent.1, silent.2.1⟩

/-- The valve is stopped, its command goes over the link, and its value is stored. -/
theorem removed_not_silent :
    Stopped valveRunning 0 1 (.ofChannel valve (.ofNat 2)) {} valveLedger valveBefore.1
        valveClosing.1.tail valveAfter.1 valveAfter.2 ∧
      (valveAfter.1.filter fun e => e.2.isRequestOver valveRunning.link).length = 1 ∧
      (valveAfter.2.store.get? ⟨7, .adjustment, 1⟩).map Sample.value = some (.ofNat 7) := by
  refine ⟨⟨valve_registered, valve_finds, valveBefore.2, valveClosing.2, ?_⟩, by decide +kernel,
    by decide +kernel⟩
  exact ⟨Ensemble.run_play (fun _ => trivial) _ _, ⟨_, rfl⟩,
    valve_closing ▸ Ensemble.run_play (fun _ => trivial) _ _, rfl,
    Ensemble.run_play (fun _ => trivial) _ _⟩

end Fieldbus
