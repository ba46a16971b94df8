import Fieldbus.Proofs.Engine.Fate

/-!
# What a reload reaches

A reload treats each id on its own.  `Roster.Treats` is one treatment, of a channel that is gone or
of a listed one; it changes what runs under its id and says one thing about it.  Since the ids
differ, treatments one after another do not disturb each other (`Roster.TreatsAll.append`), so each
id fares as if it were alone (`reload_fares`).

`reload_reaches` puts the ids together, after any number of reloads.
-/

namespace Fieldbus

open Activity (performs_pure)
open Function (update update_self update_of_ne update_eq_self update_idem)

/-! ## One channel -/

namespace Roster

theorem get?_insert_eq (roster : Roster) (id : UInt16) (r : Running) :
    (roster.insert id r).get? = update roster.get? id (some r) := by
  funext other
  rw [Table.get?_insert, Function.update_apply]
  simp only [eq_comm]

theorem get?_erase_eq (roster : Roster) (id : UInt16) :
    (roster.erase id).get? = update roster.get? id none := by
  funext other
  rw [Table.get?_erase, Function.update_apply]

/-- What the treatment of one id does to the running channels, the report and the ledger. -/
structure Treats (id : UInt16) (listed : Option Channel) (roster roster' : Roster)
    (report report' : ReloadReport) (l l' : Ledger) (after : Option Running)
    (fate : Option Fate) : Prop where
  view : roster'.get? = update roster.get? id after
  keys : roster.keys.Nodup → roster'.keys.Nodup
  noted : report' = report.note id fate (listed.bind Channel.setupDefect?)
  fared : Fared l.started listed (roster.get? id) after fate
  inStep : InStep roster'.get? l'

section

variable {roster roster' : Roster} {report report' : ReloadReport} {l l' : Ledger}
  {id : UInt16} {listed : Option Channel} {fate : Option Fate} {defect : Option Defect}
  {c : Channel} {r : Running} {events : List Event}

theorem Treats.kept (listed : Option Channel)
    (defects : listed.bind Channel.setupDefect? = defect)
    (noted : report' = report.note id fate defect)
    (fared : Fared l.started listed (roster.get? id) (roster.get? id) fate)
    (inStep : InStep roster.get? l') :
    Treats id listed roster roster report report' l l' (roster.get? id) fate where
  view := (update_eq_self ..).symm
  keys := fun distinct => distinct
  noted := by rw [noted, defects]
  fared := fared
  inStep := inStep

theorem Treats.erased (listed : Option Channel)
    (defects : listed.bind Channel.setupDefect? = defect)
    (noted : report' = report.note id fate defect)
    (fared : Fared l.started listed (roster.get? id) none fate)
    (inStep : InStep (update roster.get? id none) l') :
    Treats id listed roster (roster.erase id) report report' l l' none fate where
  view := get?_erase_eq ..
  keys distinct := Table.nodup_keys_erase distinct _
  noted := by rw [noted, defects]
  fared := fared
  inStep := by rwa [get?_erase_eq]

theorem Treats.set (listed : Option Channel)
    (defects : listed.bind Channel.setupDefect? = defect)
    (noted : report' = report.note id fate defect)
    (fared : Fared l.started listed (roster.get? id) (some r) fate)
    (inStep : InStep (update roster.get? id (some r)) l') :
    Treats id listed roster (roster.insert id r) report report' l l' (some r) fate where
  view := get?_insert_eq ..
  keys distinct := Table.nodup_keys_insert distinct ..
  noted := by rw [noted, defects]
  fared := fared
  inStep := by rwa [get?_insert_eq]

/-- A channel that keeps its runtime settings still has a link. -/
theorem canRun_of_sameRuntime {plan : Plan} (h : InStep roster.get? l)
    (before : roster.get? c.id = some r) (planned : c.plan = .ok plan)
    (same : r.channel.sameRuntime c = true) : c.CanRun :=
  ⟨⟨plan, planned⟩, ChannelLink.ofChannel_of_medium_eq (Channel.medium_eq_of_sameRuntime same)
    (h.each before).linked⟩

theorem adopt_unplanned {d : Defect} (planned : c.plan = .error d)
    (run : (adopt roster report c).Performs events (.done (roster', report')))
    (h : InStep roster.get? l) :
    ∃ after fate,
      Treats c.id (some c) roster roster' report report' l (l.afterAll events) after fate := by
  have defects : c.setupDefect? = some d := by simp [Channel.setupDefect?, planned]
  have cannot := Channel.cannot_of_setupDefect? defects
  unfold adopt at run
  cases before : roster.get? c.id with
  | none =>
    rw [planned, before] at run
    obtain ⟨rfl, made⟩ := performs_pure.mp run
    cases made
    refine ⟨_, none, .kept (some c) defects rfl ?_ h⟩
    rw [before]
    exact .absent cannot
  | some r =>
    rw [planned, before] at run
    obtain ⟨_, earlier, later, rfl, stopped, last⟩ := run.of_bind
    obtain ⟨rfl, made⟩ := performs_pure.mp last
    cases made
    rw [List.append_nil, Running.stop_cases stopped]
    refine ⟨_, some .stopped, .erased (some c) defects rfl ?_ (h.stop before)⟩
    rw [before]
    exact .stopped cannot

section

variable {plan : Plan}

theorem adopt_new (planned : c.plan = .ok plan) (before : roster.get? c.id = none)
    (run : (adopt roster report c).Performs events (.done (roster', report')))
    (h : InStep roster.get? l) (fresh : (l.afterAll events).started.Nodup) :
    ∃ after fate,
      Treats c.id (some c) roster roster' report report' l (l.afterAll events) after fate := by
  unfold adopt at run
  rw [planned, before] at run
  obtain ⟨result, earlier, later, rfl, begun, last⟩ := run.of_bind
  rcases Running.start_cases begun with
    ⟨fault, failed, rfl, rfl⟩ | ⟨made, link, linked, rfl, effect⟩
  · obtain ⟨rfl, made⟩ := performs_pure.mp last
    cases made
    have defects := Channel.setupDefect?_of_unlinked planned failed
    refine ⟨_, none, .kept (some c) defects rfl ?_ h⟩
    rw [before]
    exact .absent (Channel.cannot_of_setupDefect? defects)
  · obtain ⟨rfl, made⟩ := performs_pure.mp last
    cases made
    rw [List.append_nil, effect] at fresh ⊢
    have can : c.CanRun := ⟨⟨plan, planned⟩, made, linked⟩
    have new : link ∉ l.started := Ledger.not_mem_of_nodup_start fresh
    refine ⟨_, some .started, .set (some c) (Channel.setupDefect?_of_canRun can) rfl ?_
      (h.start (r := ⟨c, link, plan⟩) new planned can.2)⟩
    rw [before]
    exact .started can rfl new

theorem adopt_running (planned : c.plan = .ok plan) (before : roster.get? c.id = some r)
    (run : (adopt roster report c).Performs events (.done (roster', report')))
    (h : InStep roster.get? l) (fresh : (l.afterAll events).started.Nodup) :
    ∃ after fate,
      Treats c.id (some c) roster roster' report report' l (l.afterAll events) after fate := by
  unfold adopt at run
  simp only [planned, before] at run
  split at run
  next same =>
    obtain ⟨rfl, made⟩ := performs_pure.mp run
    cases made
    have can := canRun_of_sameRuntime h before planned (Bool.and_eq_true_iff.mp same).1
    have defects := Channel.setupDefect?_of_canRun can
    refine ⟨_, some .unchanged, .kept (some c) defects rfl ?_ h⟩
    rw [before]
    exact .unchanged can same
  next =>
    split at run
    next same =>
      obtain ⟨next, earlier, later, rfl, given, last⟩ := run.of_bind
      obtain ⟨rfl, made⟩ := performs_pure.mp last
      cases made
      obtain ⟨rfl, effect⟩ := Running.replan_cases given
      rw [List.append_nil, effect]
      have can := canRun_of_sameRuntime h before planned same
      refine ⟨_, some .replanned, .set (some c) (Channel.setupDefect?_of_canRun can) rfl ?_
        (h.replan (r := ⟨c, r.link, plan⟩) before rfl planned can.2)⟩
      rw [before]
      exact .replanned can rfl rfl
    next =>
      obtain ⟨_, earlier, later, rfl, stopped, run⟩ := run.of_bind
      obtain ⟨result, started, rest, rfl, begun, last⟩ := run.of_bind
      rw [Ledger.afterAll_append, Running.stop_cases stopped] at fresh ⊢
      rcases Running.start_cases begun with
        ⟨fault, failed, rfl, rfl⟩ | ⟨made, link, linked, rfl, effect⟩
      · obtain ⟨rfl, made⟩ := performs_pure.mp last
        cases made
        have defects := Channel.setupDefect?_of_unlinked planned failed
        refine ⟨_, some .stopped, .erased (some c) defects rfl ?_ (h.stop before)⟩
        rw [before]
        exact .stopped (Channel.cannot_of_setupDefect? defects)
      · obtain ⟨rfl, made⟩ := performs_pure.mp last
        cases made
        rw [List.append_nil, effect] at fresh ⊢
        have can : c.CanRun := ⟨⟨plan, planned⟩, made, linked⟩
        have defects := Channel.setupDefect?_of_canRun can
        have new : link ∉ (l.stop r).started := Ledger.not_mem_of_nodup_start fresh
        -- Stopped and set again under the same id, which is the one change of a restart.
        have again := (h.stop before).start (r := ⟨c, link, plan⟩) new planned can.2
        rw [update_idem] at again
        refine ⟨_, some .restarted, .set (some c) defects rfl ?_ again⟩
        rw [before]
        exact .restarted can rfl new

end

/-- Adopting a channel treats its id. -/
theorem adopt_treats (run : (adopt roster report c).Performs events (.done (roster', report')))
    (h : InStep roster.get? l) (fresh : (l.afterAll events).started.Nodup) :
    ∃ after fate,
      Treats c.id (some c) roster roster' report report' l (l.afterAll events) after fate := by
  cases planned : c.plan with
  | error d => exact adopt_unplanned planned run h
  | ok plan =>
    cases before : roster.get? c.id with
    | none => exact adopt_new planned before run h fresh
    | some r => exact adopt_running planned before run h fresh

/-! ## All channels -/

/-- What the treatment of some ids does, each of which may be listed. -/
structure TreatsAll (items : List (UInt16 × Option Channel)) (roster roster' : Roster)
    (report report' : ReloadReport) (l l' : Ledger) : Prop where
  keys : roster.keys.Nodup → roster'.keys.Nodup
  others : ∀ {id}, id ∉ items.map Prod.fst →
    roster'.get? id = roster.get? id ∧ report'.fates id = report.fates id
  each : ∀ {id listed}, (id, listed) ∈ items → ∃ fate, report'.fates id = fate.toList ∧
    Fared l.started listed (roster.get? id) (roster'.get? id) fate
  rejected : report'.rejected =
    report.rejected ++ items.filterMap fun item => item.2.bind Channel.setupDefect?
  inStep : InStep roster'.get? l'

theorem TreatsAll.nil (h : InStep roster.get? l) : TreatsAll [] roster roster report report l l where
  keys := id
  others _ := ⟨rfl, rfl⟩
  each member := nomatch member
  rejected := (List.append_nil _).symm
  inStep := h

theorem Treats.all {after : Option Running}
    (h : Treats id listed roster roster' report report' l l' after fate)
    (new : report.fates id = []) :
    TreatsAll [(id, listed)] roster roster' report report' l l' := by
  constructor
  case keys => exact h.keys
  case others =>
    intro other foreign
    have ne : other ≠ id := by simpa using foreign
    rw [h.view, update_of_ne ne, h.noted, ReloadReport.fates_note_of_ne ne.symm]
    exact ⟨rfl, rfl⟩
  case each =>
    intro other listed' member
    cases List.mem_singleton.mp member
    refine ⟨fate, ?_, ?_⟩
    · rw [h.noted, ReloadReport.fates_note_self new]
    · rw [h.view, update_self]
      exact h.fared
  case rejected =>
    rw [h.noted, ReloadReport.rejected_note]
    cases defect : listed.bind Channel.setupDefect? <;> simp [defect]
  case inStep => exact h.inStep

/-- Where the ids differ, what one treatment says and leaves is not touched by the other. -/
theorem TreatsAll.append {items more : List (UInt16 × Option Channel)} {middle : Roster}
    {report₁ : ReloadReport} {l₁ l₂ : Ledger}
    (first : TreatsAll items roster middle report report₁ l l₁)
    (second : TreatsAll more middle roster' report₁ report' l₁ l₂)
    (apart : ∀ id ∈ items.map Prod.fst, id ∉ more.map Prod.fst) (sub : l.started ⊆ l₁.started) :
    TreatsAll (items ++ more) roster roster' report report' l l₂ := by
  constructor
  case keys => exact fun distinct => second.keys (first.keys distinct)
  case others =>
    intro id foreign
    rw [List.map_append, List.mem_append, not_or] at foreign
    obtain ⟨view, fates⟩ := first.others foreign.1
    obtain ⟨view', fates'⟩ := second.others foreign.2
    exact ⟨view'.trans view, fates'.trans fates⟩
  case each =>
    intro id listed member
    rcases List.mem_append.mp member with member | member
    · obtain ⟨fate, fates, fared⟩ := first.each member
      obtain ⟨view, same⟩ := second.others (apart id (List.mem_map_of_mem member))
      rw [view, same]
      exact ⟨fate, fates, fared⟩
    · obtain ⟨fate, fates, fared⟩ := second.each member
      have foreign : id ∉ items.map Prod.fst := fun here =>
        apart id here (List.mem_map_of_mem member)
      rw [(first.others foreign).1] at fared
      exact ⟨fate, fates, fared.mono sub⟩
  case rejected => rw [second.rejected, first.rejected, List.filterMap_append, List.append_assoc]
  case inStep => exact second.inStep

theorem adoptAll_treats {channels : List Channel}
    (run : (adoptAll channels roster report).Performs events (.done (roster', report')))
    (h : InStep roster.get? l) (fresh : (l.afterAll events).started.Nodup)
    (distinct : (channels.map Channel.id).Nodup) (new : ∀ c ∈ channels, report.fates c.id = []) :
    TreatsAll (channels.map fun c => (c.id, some c)) roster roster' report report' l
      (l.afterAll events) := by
  induction channels generalizing roster report l events with
  | nil =>
    obtain ⟨rfl, made⟩ := performs_pure.mp run
    cases made
    exact .nil h
  | cons c rest ih =>
    obtain ⟨⟨middle, report₁⟩, earlier, later, rfl, first, last⟩ := run.of_bind
    obtain ⟨absent, distinct⟩ := List.nodup_cons.mp distinct
    rw [Ledger.afterAll_append] at fresh ⊢
    have before := fresh.sublist (Ledger.started_afterAll (l.afterAll earlier) later).sublist
    obtain ⟨after, fate, one⟩ := adopt_treats first h before
    have more := ih last one.inStep fresh distinct fun d hd => by
      have foreign : c.id ≠ d.id := fun same => absent (List.mem_map.mpr ⟨d, hd, same.symm⟩)
      rw [one.noted, ReloadReport.fates_note_of_ne foreign]
      exact new d (List.mem_cons_of_mem _ hd)
    refine (one.all (new c List.mem_cons_self)).append more ?_
      (Ledger.started_afterAll l earlier).subset
    simpa using absent

theorem stopGone_treats {gone : List Running}
    (run : (stopGone gone roster report).Performs events (.done (roster', report')))
    (h : InStep roster.get? l) (distinct : (gone.map fun r => r.channel.id).Nodup)
    (running : ∀ r ∈ gone, roster.get? r.channel.id = some r)
    (new : ∀ r ∈ gone, report.fates r.channel.id = []) :
    TreatsAll (gone.map fun r => (r.channel.id, none)) roster roster' report report' l
      (l.afterAll events) := by
  induction gone generalizing roster report l events with
  | nil =>
    obtain ⟨rfl, made⟩ := performs_pure.mp run
    cases made
    exact .nil h
  | cons r rest ih =>
    obtain ⟨_, earlier, later, rfl, first, last⟩ := run.of_bind
    obtain ⟨absent, distinct⟩ := List.nodup_cons.mp distinct
    have foreign {other : Running} (member : other ∈ rest) : r.channel.id ≠ other.channel.id :=
      fun same => absent (List.mem_map.mpr ⟨other, member, same.symm⟩)
    have one : Treats r.channel.id none roster (roster.erase r.channel.id) report
        (report.stop r.channel.id) l (l.stop r) none (some .stopped) := by
      have before := running r List.mem_cons_self
      refine .erased none rfl rfl ?_ (h.stop before)
      rw [before]
      exact .stopped fun _ listed => nomatch listed
    rw [Ledger.afterAll_append, Running.stop_cases first]
    have more := ih last one.inStep distinct
      (fun other member => by
        rw [one.view, update_of_ne (foreign member).symm]
        exact running other (List.mem_cons_of_mem _ member))
      (fun other member => by
        rw [one.noted, ReloadReport.fates_note_of_ne (foreign member)]
        exact new other (List.mem_cons_of_mem _ member))
    refine (one.all (new r List.mem_cons_self)).append more ?_ (List.Subset.refl _)
    simpa using absent

/-- What is gone are the running channels that are not listed. -/
theorem mem_gone (own : ∀ {id r}, roster.get? id = some r → r.channel.id = id)
    (keys : roster.keys.Nodup) {channels : List Channel} :
    r ∈ roster.gone channels ↔
      roster.get? r.channel.id = some r ∧ ∀ c ∈ channels, c.id ≠ r.channel.id := by
  replace own {id : UInt16} (member : (id, r) ∈ roster.entries) : r.channel.id = id :=
    own ((Table.mem_entries_iff keys).mp member)
  simp only [gone, List.mem_map, List.mem_filter, Bool.not_eq_true', List.any_eq_false,
    decide_eq_true_eq]
  constructor
  · rintro ⟨⟨id, r⟩, ⟨member, foreign⟩, rfl⟩
    rw [own member]
    exact ⟨(Table.mem_entries_iff keys).mp member, foreign⟩
  · rintro ⟨found, foreign⟩
    exact ⟨(r.channel.id, r), ⟨(Table.mem_entries_iff keys).mpr found, foreign⟩, rfl⟩

theorem nodup_gone (own : ∀ {id r}, roster.get? id = some r → r.channel.id = id)
    (keys : roster.keys.Nodup) (channels : List Channel) :
    ((roster.gone channels).map fun r => r.channel.id).Nodup := by
  have ids : (roster.gone channels).map (fun r => r.channel.id) =
      (roster.entries.filter fun entry => !(channels.any fun c => c.id = entry.1)).map Prod.fst := by
    rw [gone, List.map_map]
    refine List.map_congr_left fun entry member => ?_
    exact own ((Table.mem_entries_iff keys).mp (List.mem_filter.mp member).1)
  rw [ids]
  exact keys.sublist (List.filter_sublist.map Prod.fst)

/-- The ids that a reload treats, with what is listed for them: those that are gone first. -/
def agenda (roster : Roster) (channels : List Channel) : List (UInt16 × Option Channel) :=
  (roster.gone channels).map (fun r => (r.channel.id, none)) ++
    channels.map fun c => (c.id, some c)

theorem reload_treats {channels : List Channel}
    (run : (reload roster channels).Performs events (.done (roster', report')))
    (h : InStep roster.get? l) (keys : roster.keys.Nodup)
    (fresh : (l.afterAll events).started.Nodup) (distinct : (channels.map Channel.id).Nodup) :
    TreatsAll (roster.agenda channels) roster roster' {} report' l (l.afterAll events) := by
  obtain ⟨⟨middle, report₁⟩, earlier, later, rfl, first, last⟩ := run.of_bind
  have apart : ∀ id ∈ (roster.gone channels).map (fun r => r.channel.id),
      ∀ c ∈ channels, c.id ≠ id := by
    intro id member
    obtain ⟨r, gone, rfl⟩ := List.mem_map.mp member
    exact ((mem_gone h.own keys).mp gone).2
  have gone := stopGone_treats first h (nodup_gone h.own keys channels)
    (fun r gone => ((mem_gone h.own keys).mp gone).1) fun _ _ => rfl
  rw [Ledger.afterAll_append] at fresh ⊢
  have listed := adoptAll_treats last gone.inStep fresh distinct fun c hc => by
    have foreign : c.id ∉ ((roster.gone channels).map fun r =>
        (r.channel.id, (none : Option Channel))).map Prod.fst := by
      rw [List.map_map]
      exact fun member => apart c.id member c hc rfl
    rw [(gone.others foreign).2]
    rfl
  -- A channel that is gone is not listed.
  refine gone.append listed ?_ (Ledger.started_afterAll l earlier).subset
  rw [List.map_map, List.map_map]
  intro id member listed
  obtain ⟨c, hc, rfl⟩ := List.mem_map.mp listed
  exact apart c.id member c hc rfl

end

end Roster

/-! ## A reload -/

/-- What becomes of each id. -/
theorem reload_fares {roster roster' : Roster} {channels : List Channel} {events : List Event}
    {report : ReloadReport} {l : Ledger}
    (run : (roster.reload channels).Performs events (.done (roster', report)))
    (h : InStep roster.get? l) (keys : roster.keys.Nodup)
    (fresh : (l.afterAll events).started.Nodup) (distinct : (channels.map Channel.id).Nodup)
    (id : UInt16) :
    ∃ fate, report.fates id = fate.toList ∧
      Fared l.started (channels.find? fun c => c.id = id) (roster.get? id) (roster'.get? id)
        fate := by
  have treats := Roster.reload_treats run h keys fresh distinct
  cases found : channels.find? fun c => c.id = id with
  | some c =>
    obtain ⟨member, rfl⟩ := (Table.find?_key_eq_some_iff Channel.id distinct).mp found
    have listed : (c.id, some c) ∈ channels.map fun c => (c.id, some c) :=
      List.mem_map.mpr ⟨c, member, rfl⟩
    exact treats.each (List.mem_append_right _ listed)
  | none =>
    have foreign : ∀ c ∈ channels, c.id ≠ id := by simpa using found
    cases before : roster.get? id with
    | some r =>
      obtain rfl := (h.each before).own
      have gone : r ∈ roster.gone channels := (Roster.mem_gone h.own keys).mpr ⟨before, foreign⟩
      rw [← before]
      exact treats.each (List.mem_append_left _ (List.mem_map.mpr ⟨r, gone, rfl⟩))
    | none =>
      -- Neither listed nor running: no treatment is of this id.
      have absent : id ∉ (roster.agenda channels).map Prod.fst := by
        rw [Roster.agenda, List.map_append, List.map_map, List.map_map, List.mem_append, not_or]
        constructor
        · intro member
          obtain ⟨r, gone, rfl⟩ := List.mem_map.mp member
          rw [Function.comp_apply, ((Roster.mem_gone h.own keys).mp gone).1] at before
          cases before
        · intro member
          obtain ⟨c, hc, same⟩ := List.mem_map.mp member
          exact foreign c hc same
      obtain ⟨view, fates⟩ := treats.others absent
      rw [view, before]
      exact ⟨none, fates, .absent fun _ listed => nomatch listed⟩

/-- After a reload the listed channels run that can. -/
theorem reload_running_iff {roster roster' : Roster} {channels : List Channel}
    {events : List Event} {report : ReloadReport} {l : Ledger}
    (run : (roster.reload channels).Performs events (.done (roster', report)))
    (h : InStep roster.get? l) (keys : roster.keys.Nodup)
    (fresh : (l.afterAll events).started.Nodup) (distinct : (channels.map Channel.id).Nodup)
    (id : UInt16) :
    (roster'.get? id).isSome = true ↔ ∃ c ∈ channels, c.id = id ∧ c.CanRun := by
  obtain ⟨fate, -, fared⟩ := reload_fares run h keys fresh distinct id
  simp only [fared.isSome_iff, Option.mem_def, Table.find?_key_eq_some_iff Channel.id distinct,
    and_assoc]

/-- A reload rejects the listed channels that cannot run, in the order of the list. -/
theorem reload_rejected {roster roster' : Roster} {channels : List Channel}
    {events : List Event} {report : ReloadReport} {l : Ledger}
    (run : (roster.reload channels).Performs events (.done (roster', report)))
    (h : InStep roster.get? l) (keys : roster.keys.Nodup)
    (fresh : (l.afterAll events).started.Nodup) (distinct : (channels.map Channel.id).Nodup) :
    report.rejected = channels.filterMap Channel.setupDefect? := by
  have gone : (roster.gone channels).filterMap ((fun item => item.2.bind Channel.setupDefect?) ∘
      fun r : Running => (r.channel.id, none)) = [] :=
    List.filterMap_eq_nil_iff.mpr fun _ _ => rfl
  rw [(Roster.reload_treats run h keys fresh distinct).rejected, Roster.agenda,
    List.filterMap_append, List.filterMap_map, List.filterMap_map, gone]
  rfl

/-- What holds after a reload to a list, with what the reloads before it have left and what is left
then. -/
structure Reached (past now : Ledger) (channels : List Channel) (before after : Roster)
    (report : ReloadReport) : Prop where
  running : ∀ id, (after.get? id).isSome = true ↔ ∃ c ∈ channels, c.id = id ∧ c.CanRun
  agrees : ∀ c ∈ channels, ∀ r, after.get? c.id = some r → r.channel.agrees c = true
  planned : ∀ id r, after.get? id = some r →
    r.channel.plan = .ok r.plan ∧ now.plans.get? r.link = some r.plan
  registry : ∀ id, now.registry.get? id = (after.get? id).map fun r => ⟨r.channel, r.link⟩
  polled : ∀ id r, after.get? id = some r → r.link ∈ now.started ∧ r.link ∉ now.cancelled
  started : ∀ id ∈ report.started,
    before.get? id = none ∧ ∃ r, after.get? id = some r ∧ r.link ∉ past.started
  restarted : ∀ id ∈ report.restarted,
    ∃ r r', before.get? id = some r ∧ after.get? id = some r' ∧ r'.link ∉ past.started
  replanned : ∀ id ∈ report.replanned,
    ∃ r r', before.get? id = some r ∧ after.get? id = some r' ∧ r'.link = r.link
  unchanged : ∀ id ∈ report.unchanged, ∃ r, before.get? id = some r ∧ after.get? id = some r
  stopped : ∀ id ∈ report.stopped, (∃ r, before.get? id = some r) ∧ after.get? id = none
  /-- An id that ran before or can run now stands in the report once. -/
  once : ∀ id, (before.get? id).isSome = true ∨ (∃ c ∈ channels, c.id = id ∧ c.CanRun) →
    (report.started ++ report.replanned ++ report.restarted ++ report.unchanged ++
      report.stopped).count id = 1
  /-- No other id stands in it. -/
  never : ∀ id, before.get? id = none → (∀ c ∈ channels, c.id = id → ¬ c.CanRun) →
    (report.started ++ report.replanned ++ report.restarted ++ report.unchanged ++
      report.stopped).count id = 0
  rejected : report.rejected = channels.filterMap Channel.setupDefect?

/-- The running channels that reloads one after another lead to, and what they have left.  Each
start gives a new link. -/
inductive Reloaded : Ledger → Roster → Prop
  /-- No reload yet. -/
  | start : Reloaded {} {}
  /-- One more reload. -/
  | reload {l : Ledger} {roster roster' : Roster} {channels : List Channel} {events : List Event}
      {report : ReloadReport} :
      Reloaded l roster → (channels.map Channel.id).Nodup →
      (roster.reload channels).Performs events (.done (roster', report)) →
      (l.afterAll events).started.Nodup → Reloaded (l.afterAll events) roster'

theorem Reloaded.inStep {l : Ledger} {roster : Roster} (h : Reloaded l roster) :
    InStep roster.get? l ∧ roster.keys.Nodup := by
  induction h with
  | start => exact ⟨.empty, List.nodup_nil⟩
  | reload _ distinct run fresh ih =>
    obtain ⟨inStep, keys⟩ := ih
    have treats := Roster.reload_treats run inStep keys fresh distinct
    exact ⟨treats.inStep, treats.keys keys⟩

/-- After any number of reloads, one more reaches the channels of its list. -/
theorem reload_reaches {l : Ledger} {roster roster' : Roster} {channels : List Channel}
    {events : List Event} {report : ReloadReport} (before : Reloaded l roster)
    (distinct : (channels.map Channel.id).Nodup) (numeric : ∀ c ∈ channels, c.IsNumeric)
    (run : (roster.reload channels).Performs events (.done (roster', report)))
    (fresh : (l.afterAll events).started.Nodup) :
    Reached l (l.afterAll events) channels roster roster' report := by
  obtain ⟨inStep, keys⟩ := before.inStep
  have treats := Roster.reload_treats run inStep keys fresh distinct
  have fares := reload_fares run inStep keys fresh distinct
  have said {id : UInt16} (fate : Fate) (member : id ∈ report.named fate) :
      Fared l.started (channels.find? fun c => c.id = id) (roster.get? id) (roster'.get? id)
        (some fate) := by
    obtain ⟨told, fates, fared⟩ := fares id
    rw [← ReloadReport.mem_fates, fates, Option.mem_toList] at member
    rw [← member]
    exact fared
  have found_iff {id : UInt16} {c : Channel} :
      (channels.find? fun c => c.id = id) = some c ↔ c ∈ channels ∧ c.id = id :=
    Table.find?_key_eq_some_iff Channel.id distinct
  have listed {id : UInt16} {P : Channel → Prop} :
      (∃ c ∈ channels.find? fun c => c.id = id, P c) ↔ ∃ c ∈ channels, c.id = id ∧ P c := by
    simp only [Option.mem_def, found_iff, and_assoc]
  constructor
  case running => exact reload_running_iff run inStep keys fresh distinct
  case agrees =>
    intro c hc r found
    obtain ⟨fate, -, fared⟩ := fares c.id
    rw [found_iff.mpr ⟨hc, rfl⟩, found] at fared
    exact fared.agrees (numeric c hc)
  case planned =>
    intro id r found
    have own := treats.inStep.each found
    exact ⟨own.planned, own.plans⟩
  case registry => exact treats.inStep.registry
  case polled =>
    intro id r found
    have own := treats.inStep.each found
    exact ⟨own.started, own.alive⟩
  case started => exact fun id member => (said .started member).of_started
  case restarted => exact fun id member => (said .restarted member).of_restarted
  case replanned => exact fun id member => (said .replanned member).of_replanned
  case unchanged => exact fun id member => (said .unchanged member).of_unchanged
  case stopped => exact fun id member => (said .stopped member).of_stopped
  case once =>
    intro id known
    obtain ⟨fate, fates, fared⟩ := fares id
    rw [← ReloadReport.length_fates, fates]
    cases fate with
    | some fate => rfl
    | none =>
      obtain ⟨absent, cannot⟩ := fared.eq_none_iff.mp rfl
      rcases known with ran | can
      · rw [absent] at ran
        cases ran
      · obtain ⟨c, hc, can⟩ := listed.mpr can
        exact absurd can (cannot c hc)
  case never =>
    intro id absent cannot
    obtain ⟨fate, fates, fared⟩ := fares id
    have passed : fate = none := by
      refine fared.eq_none_iff.mpr ⟨absent, fun c found can => ?_⟩
      obtain ⟨d, hd, own, can⟩ := listed.mp ⟨c, found, can⟩
      exact cannot d hd own can
    rw [← ReloadReport.length_fates, fates, passed]
    rfl
  case rejected => exact reload_rejected run inStep keys fresh distinct

/-! ## Two reloads -/

/-- A channel with one register. -/
def gauge (id : UInt16) (interval : Nanos) (address : UInt16) : Channel :=
  { id, name := "gauge", medium := .tcp "127.0.0.1" 502, interval,
    points := [{ id := 1, address, type := .uint16 }] }

def firstGauges : List Channel := [gauge 1 100 0, gauge 2 100 0, gauge 3 100 0, gauge 4 100 0]

/-- The first gauge has another address, the second another interval, the fourth is gone, the fifth
is new, and the sixth has no link. -/
def nextGauges : List Channel :=
  [gauge 1 100 8, gauge 2 200 0, gauge 3 100 0, gauge 5 100 0,
    { gauge 6 100 0 with medium := .rtu "/dev/ttyS0" 9600 9 1 .none }]

/-- Each channel gets the link with the number of its id, counted from a number on. -/
def linksFrom (number : Nat) : (s : Step) → s.Answer
  | .start c _ _ => number + c.id.toNat
  | s => (inferInstance : Inhabited s.Answer).default

def firstReload : List Event × Roster × ReloadReport :=
  (Roster.reload {} firstGauges).trace (linksFrom 0)

def nextReload : List Event × Roster × ReloadReport :=
  (Roster.reload firstReload.2.1 nextGauges).trace (linksFrom 10)

theorem gauges_reload_reaches :
    ∃ l roster events roster' report,
      Reloaded l roster ∧ (nextGauges.map Channel.id).Nodup ∧ (∀ c ∈ nextGauges, c.IsNumeric) ∧
        (Roster.reload roster nextGauges).Performs events (.done (roster', report)) ∧
        (l.afterAll events).started.Nodup ∧
        report.started = [5] ∧ report.replanned = [1] ∧ report.restarted = [2] ∧
        report.unchanged = [3] ∧ report.stopped = [4] ∧
        report.rejected = [.channel 6 (.link (.configuration (.dataBits 9)))] ∧
        Reached l (l.afterAll events) nextGauges roster roster' report := by
  have before : Reloaded (({} : Ledger).afterAll firstReload.1) firstReload.2.1 :=
    .reload .start (by decide) (Activity.performs_trace ..) (by decide +kernel)
  have distinct : (nextGauges.map Channel.id).Nodup := by decide
  have numeric : ∀ c ∈ nextGauges, c.IsNumeric := by decide +kernel
  have run : (Roster.reload firstReload.2.1 nextGauges).Performs nextReload.1
      (.done nextReload.2) := Activity.performs_trace ..
  have fresh : ((({} : Ledger).afterAll firstReload.1).afterAll nextReload.1).started.Nodup := by
    decide +kernel
  refine ⟨_, _, _, _, _, before, distinct, numeric, run, fresh, ?_⟩
  refine ⟨by decide +kernel, by decide +kernel, by decide +kernel, by decide +kernel,
    by decide +kernel, by decide +kernel, reload_reaches before distinct numeric run fresh⟩

end Fieldbus
