import Fieldbus.Proofs.Engine.Reload

/-!
# What an engine keeps of its channels

Beside the channels that take commands an engine keeps log policies, poll loops and values.
`Estate` is what its steps have left of these, read off the events.

A channel that runs has all of them.  One that is stopped for good leaves nothing.  One that is
stopped to be started again, but has no link then, leaves its log policy and its values:
`Remains.abandoned`.  `Roster.reload_accords` says that a reload leaves of each id what
`Remains.next` says, and that the engine never forgets a channel while a poll loop of it is left.
-/

namespace Fieldbus

open Activity (Ensures ensures_bind ensures_ask_bind ask)
open Function (update update_self update_of_ne update_eq_self update_idem)

namespace Table

variable {κ β : Type} [DecidableEq κ] {t : Table κ β} {key other : κ} {value x : β}

theorem of_get?_insert (found : (t.insert key value).get? other = some x) :
    key = other ∧ value = x ∨ t.get? other = some x := by
  rw [get?_insert] at found
  split at found
  next same => exact .inl ⟨same, Option.some.inj found⟩
  next => exact .inr found

theorem of_get?_erase (found : (t.erase key).get? other = some x) : t.get? other = some x := by
  rw [get?_erase] at found
  split at found
  next => cases found
  next => exact found

end Table

/-! ## Estates -/

/-- What an engine's steps have left. -/
structure Estate extends Ledger where
  policies : Table UInt16 LogPolicy := {}
  /-- The poll loops that were started and not joined since. -/
  loops : List (Channel × LinkId) := []
  /-- The channels that were started and not forgotten since. -/
  kept : List UInt16 := []

namespace Estate

def after (s : Estate) (e : Event) : Estate where
  toLedger := s.toLedger.after e
  policies :=
    match e.step with
    | .setPolicy id policy => s.policies.insert id policy
    | .dropPolicy id => s.policies.erase id
    | _ => s.policies
  loops :=
    match e with
    | ⟨.start c _ _, link⟩ => (c, link) :: s.loops
    | ⟨.join link, _⟩ => s.loops.filter fun l => l.2 ≠ link
    | _ => s.loops
  kept :=
    match e.step with
    | .start c _ _ => c.id :: s.kept
    | .forget id => s.kept.filter (· ≠ id)
    | _ => s.kept

/-- The estate after some more events. -/
def afterAll (s : Estate) (events : List Event) : Estate := events.foldl after s

@[simp] theorem afterAll_nil (s : Estate) : s.afterAll [] = s := rfl

@[simp] theorem afterAll_append (s : Estate) (earlier later : List Event) :
    s.afterAll (earlier ++ later) = (s.afterAll earlier).afterAll later :=
  List.foldl_append

@[simp] theorem afterAll_cons (s : Estate) (e : Event) (rest : List Event) :
    s.afterAll (e :: rest) = (s.after e).afterAll rest := rfl

/-- What a past has left. -/
def of (past : List Event) : Estate := ({} : Estate).afterAll past

@[simp] theorem of_snoc (past : List Event) (e : Event) : of (past ++ [e]) = (of past).after e := by
  simp [of]

theorem toLedger_afterAll (s : Estate) (events : List Event) :
    (s.afterAll events).toLedger = s.toLedger.afterAll events := by
  induction events generalizing s with
  | nil => rfl
  | cons e rest ih => exact ih (s.after e)

/-- Whether an engine may do something.  What takes commands was started.  What is forgotten takes
none, and none of its poll loops is left. -/
def Allows (s : Estate) (e : Event) : Prop :=
  match e.step with
  | .register h => h.channel.id ∈ s.kept
  | .forget id => s.registry.get? id = none ∧ ∀ l ∈ s.loops, l.1.id ≠ id
  | .publish _ => False
  | _ => True

/-- What takes commands or is polled was started and not forgotten since. -/
structure Sound (s : Estate) : Prop where
  own : ∀ id h, s.registry.get? id = some h → h.channel.id = id
  registered : ∀ id h, s.registry.get? id = some h → id ∈ s.kept
  polled : ∀ l ∈ s.loops, l.1.id ∈ s.kept

theorem Sound.empty : ({} : Estate).Sound where
  own _ _ found := nomatch found
  registered _ _ found := nomatch found
  polled _ found := nomatch found

theorem Sound.after {s : Estate} (h : s.Sound) {e : Event} (allowed : s.Allows e) :
    (s.after e).Sound := by
  obtain ⟨own, registered, polled⟩ := h
  obtain ⟨step, answer⟩ := e
  cases step with
  | register handle =>
    refine ⟨fun id g there => ?_, fun id g there => ?_, polled⟩
    · rcases Table.of_get?_insert there with ⟨rfl, rfl⟩ | there
      · rfl
      · exact own id g there
    · rcases Table.of_get?_insert there with ⟨rfl, rfl⟩ | there
      · exact allowed
      · exact registered id g there
  | unregister other =>
    exact ⟨fun id g there => own id g (Table.of_get?_erase there),
      fun id g there => registered id g (Table.of_get?_erase there), polled⟩
  | start c _ _ =>
    refine ⟨own, fun id g there => List.mem_cons_of_mem _ (registered id g there), fun l hl => ?_⟩
    rcases List.mem_cons.mp hl with rfl | hl
    · exact List.mem_cons_self
    · exact List.mem_cons_of_mem _ (polled l hl)
  | join link => exact ⟨own, registered, fun l hl => polled l (List.mem_filter.mp hl).1⟩
  | forget other =>
    have kept {id : UInt16} (there : id ∈ s.kept) (apart : id ≠ other) :
        id ∈ s.kept.filter (· ≠ other) := List.mem_filter.mpr ⟨there, by simpa using apart⟩
    refine ⟨own, fun id g there => kept (registered id g there) ?_,
      fun l hl => kept (polled l hl) (allowed.2 l hl)⟩
    rintro rfl
    have both : some g = none := there.symm.trans allowed.1
    cases both
  | _ => exact ⟨own, registered, polled⟩

theorem Sound.afterAll {s : Estate} (h : s.Sound) {events : List Event}
    (allowed : ∀ before e later, events = before ++ e :: later → (s.afterAll before).Allows e) :
    (s.afterAll events).Sound := by
  induction events generalizing s with
  | nil => exact h
  | cons e rest ih =>
    refine ih (h.after (allowed [] e rest rfl)) fun before x later split => ?_
    exact allowed (e :: before) x later (by rw [split, List.cons_append])

/-- What is kept stays until it is forgotten. -/
theorem mem_kept_afterAll {s : Estate} {id : UInt16} (kept : id ∈ s.kept) {events : List Event}
    (keeps : ∀ e ∈ events, e.step ≠ .forget id) : id ∈ (s.afterAll events).kept := by
  induction events generalizing s with
  | nil => exact kept
  | cons e rest ih =>
    refine ih ?_ fun x hx => keeps x (List.mem_cons_of_mem _ hx)
    have other := keeps e List.mem_cons_self
    obtain ⟨step, answer⟩ := e
    cases step with
    | start c _ _ => exact List.mem_cons_of_mem _ kept
    | forget foreign =>
      refine List.mem_filter.mpr ⟨kept, decide_eq_true ?_⟩
      rintro rfl
      exact other rfl
    | _ => exact kept

end Estate

/-! ## What remains of a channel -/

/-- What is left of a channel. -/
inductive Remains where
  | nothing
  /-- It runs. -/
  | running
  /-- It does not run, but its log policy and its values stay. -/
  | abandoned
deriving DecidableEq

namespace Remains

/-- What a channel leaves that is stopped for good if it runs. -/
def stop : Remains → Remains
  | .running => .nothing
  | was => was

/-- What a listed channel leaves.  One that runs is stopped before it turns out that there is no
link to start it with again. -/
def adopt (c : Channel) (was : Remains) : Remains :=
  match c.plan, ChannelLink.ofChannel c with
  | .ok _, .ok _ => .running
  | .ok _, .error _ => if was = .running then .abandoned else was
  | .error _, _ => was.stop

variable {c : Channel} {plan : Plan} {was : Remains}

theorem stop_of_ne (idle : was ≠ .running) : was.stop = was := by
  cases was with
  | running => exact absurd rfl idle
  | nothing | abandoned => rfl

theorem adopt_unplanned {defect : Defect} (planned : c.plan = .error defect) :
    was.adopt c = was.stop := by
  simp [adopt, planned]

theorem adopt_unlinked {fault : Fault} (planned : c.plan = .ok plan)
    (failed : ChannelLink.ofChannel c = .error fault) :
    was.adopt c = if was = .running then .abandoned else was := by
  simp [adopt, planned, failed]

theorem adopt_canRun (h : c.CanRun) : was.adopt c = .running := by
  obtain ⟨⟨plan, planned⟩, l, linked⟩ := h
  simp [adopt, planned, linked]

/-- What a reload leaves of an id, by the record that is listed for it. -/
def next (was : Remains) : Option Channel → Remains
  | none => was.stop
  | some c => was.adopt c

/-- What reloads to some lists leave of an id. -/
def afterAll (lists : List (List Channel)) (id : UInt16) (was : Remains) : Remains :=
  lists.foldl (fun was channels => was.next (channels.find? fun c => c.id = id)) was

/-- What an engine's reloads leave of an id. -/
def of (lists : List (List Channel)) (id : UInt16) : Remains := afterAll lists id .nothing

end Remains

/-- The running channels and the estate are as the remains say. -/
structure Accords (roster : Roster) (was : UInt16 → Remains) (s : Estate) : Prop where
  keys : roster.keys.Nodup
  own : ∀ {id r}, roster.get? id = some r → r.channel.id = id
  linked : ∀ {id r}, roster.get? id = some r → ∃ l, ChannelLink.ofChannel r.channel = .ok l
  running : ∀ id, (roster.get? id).isSome = true ↔ was id = .running
  policies : ∀ id, (s.policies.get? id).isSome = true ↔ was id ≠ .nothing
  kept : ∀ id, id ∈ s.kept ↔ was id ≠ .nothing
  polled : ∀ l ∈ s.loops, ∃ r, roster.get? l.1.id = some r ∧ r.link = l.2

namespace Accords

variable {roster : Roster} {was : UInt16 → Remains} {s s' : Estate} {id : UInt16} {r : Running}

theorem empty : Accords {} (fun _ => .nothing) {} where
  keys := List.nodup_nil
  own found := nomatch found
  linked found := nomatch found
  running _ := by simp
  policies _ := by simp
  kept _ := by simp
  polled _ found := nomatch found

theorem of_eq (h : Accords roster was s) {was' : UInt16 → Remains} (same : ∀ id, was' id = was id) :
    Accords roster was' s := by
  rwa [funext same]

theorem of_view (h : Accords roster was s) {roster' : Roster} (keys : roster'.keys.Nodup)
    (view : roster'.get? = roster.get?) : Accords roster' was s where
  keys := keys
  own := by
    rw [view]
    exact h.own
  linked := by
    rw [view]
    exact h.linked
  running := by
    rw [view]
    exact h.running
  policies := h.policies
  kept := h.kept
  polled := by
    rw [view]
    exact h.polled

/-- A running channel that is stopped leaves its log policy and its values. -/
theorem stop (h : Accords roster was s) (here : roster.get? id = some r)
    (policies : s'.policies = s.policies) (kept : s'.kept = s.kept)
    (loops : s'.loops = s.loops.filter fun l => l.2 ≠ r.link) :
    Accords (roster.erase id) (update was id .abandoned) s' := by
  have ran : was id = .running := (h.running id).mp (by rw [here]; rfl)
  have left (other : UInt16) :
      update was id .abandoned other ≠ .nothing ↔ was other ≠ .nothing := by
    by_cases same : other = id
    · simp [same, ran]
    · rw [update_of_ne same]
  constructor
  case keys => exact Table.nodup_keys_erase h.keys id
  case own => exact fun there => h.own (Table.of_get?_erase there)
  case linked => exact fun there => h.linked (Table.of_get?_erase there)
  case running =>
    intro other
    rw [Table.get?_erase]
    by_cases same : other = id
    · simp [same]
    · rw [if_neg same, update_of_ne same, h.running]
  case policies => exact fun other => by rw [policies, left, h.policies]
  case kept => exact fun other => by rw [kept, left, h.kept]
  case polled =>
    intro l hl
    rw [loops, List.mem_filter] at hl
    obtain ⟨r', there, same⟩ := h.polled l hl.1
    refine ⟨r', ?_, same⟩
    rw [Table.get?_erase, if_neg, there]
    intro own
    rw [own, here] at there
    cases there
    exact absurd same.symm (by simpa using hl.2)

/-- A channel that was abandoned leaves nothing once it is forgotten. -/
theorem forget (h : Accords roster was s) (gone : roster.get? id = none)
    (policies : s'.policies = s.policies.erase id) (kept : s'.kept = s.kept.filter (· ≠ id))
    (loops : s'.loops = s.loops) : Accords roster (update was id .nothing) s' := by
  constructor
  case keys => exact h.keys
  case own => exact h.own
  case linked => exact h.linked
  case running =>
    intro other
    by_cases same : other = id
    · simp [same, gone]
    · rw [update_of_ne same, h.running]
  case policies =>
    intro other
    rw [policies, Table.get?_erase]
    by_cases same : other = id
    · simp [same]
    · rw [if_neg same, update_of_ne same, h.policies]
  case kept =>
    intro other
    rw [kept, List.mem_filter]
    by_cases same : other = id
    · simp [same]
    · rw [update_of_ne same, ← h.kept]
      simp [same]
  case polled =>
    rw [loops]
    exact h.polled

/-- A channel that did not run runs over a link. -/
theorem start (h : Accords roster was s) (gone : roster.get? r.channel.id = none)
    (linked : ∃ l, ChannelLink.ofChannel r.channel = .ok l)
    (policies : s'.policies = s.policies.insert r.channel.id r.channel.log)
    (kept : s'.kept = r.channel.id :: s.kept) (loops : s'.loops = (r.channel, r.link) :: s.loops) :
    Accords (roster.insert r.channel.id r) (update was r.channel.id .running) s' := by
  constructor
  case keys => exact Table.nodup_keys_insert h.keys ..
  case own =>
    intro other r' there
    rcases Table.of_get?_insert there with ⟨rfl, rfl⟩ | there
    · rfl
    · exact h.own there
  case linked =>
    intro other r' there
    rcases Table.of_get?_insert there with ⟨rfl, rfl⟩ | there
    · exact linked
    · exact h.linked there
  case running =>
    intro other
    rw [Table.get?_insert]
    by_cases same : r.channel.id = other
    · simp [same]
    · rw [if_neg same, update_of_ne (Ne.symm same), h.running]
  case policies =>
    intro other
    rw [policies, Table.get?_insert]
    by_cases same : r.channel.id = other
    · simp [same]
    · rw [if_neg same, update_of_ne (Ne.symm same), h.policies]
  case kept =>
    intro other
    rw [kept, List.mem_cons]
    by_cases same : r.channel.id = other
    · simp [same]
    · rw [update_of_ne (Ne.symm same), ← h.kept]
      simp [Ne.symm same]
  case polled =>
    intro l hl
    rw [loops] at hl
    rcases List.mem_cons.mp hl with rfl | hl
    · exact ⟨r, by simp [Table.get?_insert], rfl⟩
    · obtain ⟨r', there, same⟩ := h.polled l hl
      refine ⟨r', ?_, same⟩
      rw [Table.get?_insert, if_neg, there]
      intro own
      rw [← own, gone] at there
      cases there

/-- A running channel gets other points over the link that it has. -/
theorem replan (h : Accords roster was s) (here : roster.get? id = some r) {r' : Running}
    (own : r'.channel.id = id) (link : r'.link = r.link)
    (linked : ∃ l, ChannelLink.ofChannel r'.channel = .ok l) (policies : s'.policies = s.policies)
    (kept : s'.kept = s.kept) (loops : s'.loops = s.loops) :
    Accords (roster.insert id r') was s' := by
  constructor
  case keys => exact Table.nodup_keys_insert h.keys ..
  case own =>
    intro other r'' there
    rcases Table.of_get?_insert there with ⟨rfl, rfl⟩ | there
    · exact own
    · exact h.own there
  case linked =>
    intro other r'' there
    rcases Table.of_get?_insert there with ⟨rfl, rfl⟩ | there
    · exact linked
    · exact h.linked there
  case running =>
    intro other
    rw [← h.running, Table.get?_insert]
    by_cases same : id = other
    · simp [← same, here]
    · rw [if_neg same]
  case policies => exact fun other => by rw [policies, h.policies]
  case kept => exact fun other => by rw [kept, h.kept]
  case polled =>
    intro l hl
    rw [loops] at hl
    obtain ⟨r'', there, same⟩ := h.polled l hl
    by_cases own : id = l.1.id
    · rw [← own, here] at there
      cases there
      exact ⟨r', by simp [Table.get?_insert, own], link.trans same⟩
    · exact ⟨r'', by rw [Table.get?_insert, if_neg own, there], same⟩

end Accords

/-! ## One channel -/

section

variable {roster : Roster} {was : UInt16 → Remains} {past : List Event} {c : Channel}
  {plan : Plan} {r : Running}

/-- What an engine may do, with what its past has left. -/
def engineRules : Rules := ⟨fun _ => True, fun past e => (Estate.of past).Allows e⟩

theorem engineRules_may {e : Event} : engineRules.may past e ↔ (Estate.of past).Allows e := Iff.rfl

/-- A channel that takes no commands is forgotten if it is gone for good. -/
theorem Running.forget_accords {id : UInt16}
    (left : Accords roster (update was id .abandoned) (.of past)) (gone : roster.get? id = none)
    (silent : (Estate.of past).registry.get? id = none) (isGone : Bool) :
    (if isGone then ask (.dropPolicy id) >>= fun _ => ask (.forget id) else pure ()).Ensures
      engineRules (fun past _ => Accords roster
        (update was id (if isGone then .nothing else .abandoned)) (.of past)) past := by
  cases isGone with
  | false => exact left
  | true =>
    refine ensures_ask_bind.mpr fun _ _ => ⟨trivial, fun _ _ => ⟨?_, ?_⟩⟩
    · rw [engineRules_may, Estate.of_snoc]
      refine ⟨silent, fun l hl own => ?_⟩
      obtain ⟨r', there, -⟩ := left.polled l hl
      rw [own, gone] at there
      cases there
    · change Accords _ _ (.of _)
      simp only [Estate.of_snoc]
      have nothing : Accords _ _ (((Estate.of past).after ⟨.dropPolicy id, ()⟩).after
          ⟨.forget id, ()⟩) := left.forget gone rfl rfl rfl
      rwa [update_idem] at nothing

theorem Running.stop_accords (h : Accords roster was (.of past))
    (here : roster.get? r.channel.id = some r) (isGone : Bool) :
    (r.stop isGone).Ensures engineRules
      (fun past _ => Accords (roster.erase r.channel.id)
        (update was r.channel.id (if isGone then .nothing else .abandoned)) (.of past)) past := by
  refine ensures_ask_bind.mpr fun _ _ => ⟨trivial, ?_⟩
  refine ensures_ask_bind.mpr fun _ _ => ⟨trivial, ?_⟩
  refine ensures_ask_bind.mpr fun _ _ => ⟨trivial, ?_⟩
  refine ensures_ask_bind.mpr fun _ _ => ⟨trivial, ?_⟩
  refine ensures_ask_bind.mpr fun _ _ => ⟨trivial, ?_⟩
  refine ensures_ask_bind.mpr fun _ _ => ⟨trivial, ?_⟩
  refine forget_accords ?_ ?_ ?_ isGone
  · simp only [Estate.of_snoc]
    exact h.stop here rfl rfl rfl
  · simp [Table.get?_erase]
  · simp only [Estate.of_snoc]
    simp [Estate.after, Ledger.after, Table.get?_erase]

/-- A channel is started, unless it has no link. -/
theorem Running.start_accords (h : Accords roster was (.of past))
    (gone : roster.get? c.id = none) :
    (Running.start c plan).Ensures engineRules (fun past result =>
      (∃ fault, ChannelLink.ofChannel c = .error fault ∧
          result = .error (.channel c.id (.link fault))) ∧ Accords roster was (.of past) ∨
        ∃ l r, ChannelLink.ofChannel c = .ok l ∧ result = .ok r ∧
          Accords (roster.insert c.id r) (update was c.id .running) (.of past)) past := by
  unfold Running.start
  cases made : ChannelLink.ofChannel c with
  | error fault => exact .inl ⟨⟨fault, rfl, rfl⟩, h⟩
  | ok l =>
    refine ensures_ask_bind.mpr fun _ _ => ⟨trivial, ?_⟩
    refine ensures_ask_bind.mpr fun link _ => ⟨trivial, ?_⟩
    refine ensures_ask_bind.mpr fun _ _ => ⟨?_, ?_⟩
    · simp only [engineRules_may, Estate.of_snoc]
      exact List.mem_cons_self
    · refine .inr ⟨l, ⟨c, link, plan⟩, rfl, rfl, ?_⟩
      simp only [Estate.of_snoc]
      exact h.start (r := ⟨c, link, plan⟩) gone ⟨l, made⟩ rfl rfl rfl

theorem Running.replan_accords (h : Accords roster was (.of past))
    (here : roster.get? c.id = some r) (linked : ∃ l, ChannelLink.ofChannel c = .ok l) :
    (r.replan c plan).Ensures engineRules
      (fun past r' => Accords (roster.insert c.id r') was (.of past)) past := by
  refine ensures_ask_bind.mpr fun _ _ => ⟨trivial, ensures_ask_bind.mpr fun _ _ => ⟨?_, ?_⟩⟩
  · rw [engineRules_may, Estate.of_snoc]
    refine (h.kept c.id).mpr ?_
    rw [(h.running c.id).mp (by rw [here]; rfl)]
    nofun
  · change Accords _ _ (.of _)
    simp only [Estate.of_snoc]
    exact h.replan here rfl rfl linked rfl rfl rfl

namespace Roster

variable {report : ReloadReport}

/-- A listed channel leaves what remains of it. -/
theorem adopt_accords (h : Accords roster was (.of past)) :
    (adopt roster report c).Ensures engineRules
      (fun past out => Accords out.1 (update was c.id ((was c.id).adopt c)) (.of past)) past := by
  -- Nothing is done where nothing changes.
  have same (kept : (was c.id).adopt c = was c.id) :
      Accords roster (update was c.id ((was c.id).adopt c)) (.of past) := by
    rwa [kept, update_eq_self]
  unfold adopt
  cases before : roster.get? c.id with
  | none =>
    have idle : was c.id ≠ .running := by
      rw [Ne, ← h.running, before]
      simp
    cases planned : c.plan with
    | error defect =>
      exact same ((Remains.adopt_unplanned planned).trans (Remains.stop_of_ne idle))
    | ok plan =>
      refine (ensures_bind _ _).mpr ((Running.start_accords h before).mono
        fun past result started => ?_)
      rcases started with ⟨⟨fault, failed, rfl⟩, still⟩ | ⟨l, r, made, rfl, runs⟩
      · change Accords _ _ _
        rwa [Remains.adopt_unlinked planned failed, if_neg idle, update_eq_self]
      · change Accords _ _ _
        rwa [Remains.adopt_canRun ⟨⟨plan, planned⟩, l, made⟩]
  | some r =>
    have ran : was c.id = .running := (h.running c.id).mp (by rw [before]; rfl)
    have own : r.channel.id = c.id := h.own before
    have linked (same : r.channel.sameRuntime c = true) : ∃ l, ChannelLink.ofChannel c = .ok l :=
      ChannelLink.ofChannel_of_medium_eq (Channel.medium_eq_of_sameRuntime same) (h.linked before)
    have stopped (isGone : Bool) := Running.stop_accords h (own.symm ▸ before) isGone
    rw [own] at stopped
    cases planned : c.plan with
    | error defect =>
      refine (ensures_bind _ _).mpr ((stopped true).mono fun past _ left => ?_)
      change Accords _ _ _
      rwa [Remains.adopt_unplanned planned, ran]
    | ok plan =>
      have can (same : r.channel.sameRuntime c = true) : (was c.id).adopt c = was c.id := by
        rw [Remains.adopt_canRun ⟨⟨plan, planned⟩, linked same⟩, ran]
      dsimp only
      split
      next agrees => exact same (can (Bool.and_eq_true_iff.mp agrees).1)
      next =>
        split
        next runtime =>
          refine (ensures_bind _ _).mpr ((Running.replan_accords h before (linked runtime)).mono
            fun past r' runs => ?_)
          change Accords _ _ _
          rwa [can runtime, update_eq_self]
        next =>
          refine (ensures_bind _ _).mpr ((stopped false).mono fun past _ left => ?_)
          have gone : (roster.erase c.id).get? c.id = none := by simp [Table.get?_erase]
          refine (ensures_bind _ _).mpr ((Running.start_accords left gone).mono
            fun past result started => ?_)
          rcases started with ⟨⟨fault, failed, rfl⟩, still⟩ | ⟨l, r', made, rfl, runs⟩
          · change Accords _ _ _
            rwa [Remains.adopt_unlinked planned failed, if_pos ran]
          · change Accords _ _ _
            rw [update_idem] at runs
            rw [Remains.adopt_canRun ⟨⟨plan, planned⟩, l, made⟩]
            refine runs.of_view (Table.nodup_keys_insert h.keys ..) ?_
            rw [get?_insert_eq, get?_insert_eq, get?_erase_eq, update_idem]

/-- Running channels that are stopped for good leave nothing. -/
theorem stopGone_accords {gone : List Running} (h : Accords roster was (.of past))
    (running : ∀ r ∈ gone, roster.get? r.channel.id = some r)
    (distinct : (gone.map fun r => r.channel.id).Nodup) :
    (stopGone gone roster report).Ensures engineRules
      (fun past out => Accords out.1
        (fun id => if id ∈ gone.map fun r => r.channel.id then .nothing else was id) (.of past))
      past := by
  induction gone generalizing roster was report past with
  | nil =>
    change Accords _ _ _
    simpa using h
  | cons r rest ih =>
    obtain ⟨absent, distinct⟩ := List.nodup_cons.mp distinct
    refine (ensures_bind _ _).mpr
      ((Running.stop_accords h (running r List.mem_cons_self) true).mono fun past _ left => ?_)
    refine (ih left (fun other member => ?_) distinct).mono fun past out all => ?_
    · have foreign : other.channel.id ≠ r.channel.id := fun same =>
        absent (List.mem_map.mpr ⟨other, member, same⟩)
      rw [Table.get?_erase, if_neg foreign]
      exact running other (List.mem_cons_of_mem _ member)
    · refine all.of_eq fun id => ?_
      by_cases same : id = r.channel.id
      · simp [same]
      · simp [same]

theorem adoptAll_accords {channels : List Channel} (h : Accords roster was (.of past))
    (distinct : (channels.map Channel.id).Nodup) :
    (adoptAll channels roster report).Ensures engineRules
      (fun past out => Accords out.1
        (fun id => ((channels.find? fun c => c.id = id).elim (was id) fun c => (was id).adopt c))
        (.of past)) past := by
  induction channels generalizing roster was report past with
  | nil => exact h
  | cons c rest ih =>
    obtain ⟨absent, distinct⟩ := List.nodup_cons.mp distinct
    refine (ensures_bind _ _).mpr ((adopt_accords h).mono fun past out one => ?_)
    refine (ih one distinct).mono fun past out all => ?_
    refine all.of_eq fun id => ?_
    by_cases same : c.id = id
    · have none : (rest.find? fun c => c.id = id) = none := by
        rw [List.find?_eq_none]
        intro d hd own
        exact absent (List.mem_map.mpr ⟨d, hd, (by simpa using own : d.id = id).trans same.symm⟩)
      rw [List.find?_cons_of_pos (by simpa using same), none]
      simp [← same]
    · rw [List.find?_cons_of_neg (by simpa using same), update_of_ne (Ne.symm same)]

/-- What a reload leaves of each id. -/
theorem reload_accords {channels : List Channel} (h : Accords roster was (.of past))
    (distinct : (channels.map Channel.id).Nodup) :
    (reload roster channels).Ensures engineRules
      (fun past out => Accords out.1
        (fun id => (was id).next (channels.find? fun c => c.id = id)) (.of past)) past := by
  have running : ∀ r ∈ roster.gone channels, roster.get? r.channel.id = some r :=
    fun r gone => ((mem_gone h.own h.keys).mp gone).1
  refine (ensures_bind _ _).mpr
    ((stopGone_accords h running (nodup_gone h.own h.keys channels)).mono fun past out left => ?_)
  refine (adoptAll_accords left distinct).mono fun past out all => all.of_eq fun id => ?_
  cases found : channels.find? fun c => c.id = id with
  | some c =>
    obtain ⟨member, rfl⟩ := (Table.find?_key_eq_some_iff Channel.id distinct).mp found
    have listed : c.id ∉ (roster.gone channels).map fun r => r.channel.id := by
      intro absent
      obtain ⟨r, gone, own⟩ := List.mem_map.mp absent
      exact ((mem_gone h.own h.keys).mp gone).2 c member own.symm
    simp only [if_neg listed]
    rfl
  | none =>
    have foreign : ∀ c ∈ channels, c.id ≠ id := by simpa using found
    by_cases ran : was id = .running
    · obtain ⟨r, before⟩ := Option.isSome_iff_exists.mp ((h.running id).mpr ran)
      obtain rfl := h.own before
      have gone : r ∈ roster.gone channels := (mem_gone h.own h.keys).mpr ⟨before, foreign⟩
      have absent : r.channel.id ∈ (roster.gone channels).map fun r => r.channel.id :=
        List.mem_map_of_mem gone
      simp only [if_pos absent, ran]
      rfl
    · have kept : id ∉ (roster.gone channels).map fun r => r.channel.id := by
        intro absent
        obtain ⟨r, gone, rfl⟩ := List.mem_map.mp absent
        exact ran ((h.running _).mp (by rw [running r gone]; rfl))
      simp only [if_neg kept]
      exact Remains.stop_of_ne ran

/-- Reloads to lists one after another. -/
def reloads : List (List Channel) → Roster → Activity Roster
  | [], roster => return roster
  | channels :: rest, roster => do
    let (roster, _) ← reload roster channels
    reloads rest roster

theorem reloads_accords {lists : List (List Channel)} (h : Accords roster was (.of past))
    (distinct : ∀ channels ∈ lists, (channels.map Channel.id).Nodup) :
    (reloads lists roster).Ensures engineRules
      (fun past roster => Accords roster (fun id => Remains.afterAll lists id (was id)) (.of past))
      past := by
  induction lists generalizing roster was past with
  | nil => exact h
  | cons channels rest ih =>
    refine (ensures_bind _ _).mpr ((reload_accords h (distinct channels List.mem_cons_self)).mono
      fun past out one => ?_)
    exact ih one fun other member => distinct other (List.mem_cons_of_mem _ member)

end Roster

end

end Fieldbus
