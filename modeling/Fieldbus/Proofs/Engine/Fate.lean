import Fieldbus.Proofs.Engine.Ledger

/-!
# What becomes of a channel

What a reload does with an id depends on the record that the list has for it and on what ran under
it before.  `Fared` is that relation, with one rule for each answer of the report and one for an id
that the report does not name.

A report names an id once if all that it says of the id is one answer (`ReloadReport.fates`).
-/

namespace Fieldbus

/-! ## Agreement -/

/-- All numbers of the channel are numbers. -/
def Channel.IsNumeric (c : Channel) : Prop :=
  c.retry.multiplier.isNaN = false ∧
    ∀ p ∈ c.points, p.transform.scale.isNaN = false ∧ p.transform.offset.isNaN = false

instance (c : Channel) : Decidable c.IsNumeric := inferInstanceAs (Decidable (_ ∧ _))

theorem Binary64.eq_self {x : Binary64} (number : x.isNaN = false) : x.eq x = true := by
  simp [Binary64.eq, number]

theorem Channel.samePoints_self {points : List Point}
    (numbers : ∀ p ∈ points, p.transform.scale.isNaN = false ∧ p.transform.offset.isNaN = false) :
    Channel.samePoints points points = true := by
  induction points with
  | nil => rfl
  | cons p rest ih =>
    obtain ⟨scale, offset⟩ := numbers p List.mem_cons_self
    have own : p.agrees p = true := by
      simp [Point.agrees, Transform.agrees, Binary64.eq_self scale, Binary64.eq_self offset]
    rw [Channel.samePoints, own, ih fun q hq => numbers q (List.mem_cons_of_mem _ hq)]
    rfl

theorem Channel.agrees_self {c : Channel} (h : c.IsNumeric) : c.agrees c = true := by
  have retry : c.retry.agrees c.retry = true := by
    simp [RetryPolicy.agrees, Binary64.eq_self h.1]
  simp [Channel.agrees, Channel.sameRuntime, retry, Channel.samePoints_self h.2]

theorem Channel.medium_eq_of_sameRuntime {c d : Channel} (same : c.sameRuntime d = true) :
    c.medium = d.medium := by
  simp only [Channel.sameRuntime, Bool.and_eq_true, beq_iff_eq] at same
  exact same.1.1.1.1.1.1.2

/-- Whether a channel has a link is a matter of its medium. -/
theorem ChannelLink.ofChannel_of_medium_eq {c d : Channel} (same : c.medium = d.medium)
    (made : ∃ l, ChannelLink.ofChannel c = .ok l) : ∃ l, ChannelLink.ofChannel d = .ok l := by
  obtain ⟨l, made⟩ := made
  cases medium : d.medium with
  | tcp host port => simp [ChannelLink.ofChannel, medium]
  | rtu device baud dataBits stopBits parity =>
    have settings : SerialSettings.forChannel c = SerialSettings.forChannel d := by
      simp only [SerialSettings.forChannel, same, medium]
    simp only [ChannelLink.ofChannel, same, medium, settings] at made ⊢
    cases found : SerialSettings.forChannel d with
    | error fault =>
      rw [found] at made
      cases made
    | ok settings => exact ⟨_, rfl⟩

/-! ## Reports -/

/-- What a reload says of an id. -/
inductive Fate where
  | started
  | replanned
  | restarted
  | unchanged
  | stopped
deriving DecidableEq

/-- Why a listed channel cannot run. -/
def Channel.setupDefect? (c : Channel) : Option Defect :=
  match c.plan, ChannelLink.ofChannel c with
  | .error defect, _ => some defect
  | .ok _, .error fault => some (.channel c.id (.link fault))
  | .ok _, .ok _ => none

namespace ReloadReport

def named (r : ReloadReport) : Fate → List UInt16
  | .started => r.started
  | .replanned => r.replanned
  | .restarted => r.restarted
  | .unchanged => r.unchanged
  | .stopped => r.stopped

/-- All that is said of an id. -/
def fates (r : ReloadReport) (id : UInt16) : List Fate :=
  [.started, .replanned, .restarted, .unchanged, .stopped].flatMap fun fate =>
    List.replicate ((r.named fate).count id) fate

def add (r : ReloadReport) (id : UInt16) : Fate → ReloadReport
  | .started => { r with started := r.started ++ [id] }
  | .replanned => { r with replanned := r.replanned ++ [id] }
  | .restarted => { r with restarted := r.restarted ++ [id] }
  | .unchanged => { r with unchanged := r.unchanged ++ [id] }
  | .stopped => r.stop id

/-- The report with what became of one listed channel. -/
def note (r : ReloadReport) (id : UInt16) (fate : Option Fate) (defect : Option Defect) :
    ReloadReport :=
  let r := fate.elim r (r.add id)
  defect.elim r r.reject

theorem mem_fates {r : ReloadReport} {id : UInt16} {fate : Fate} :
    fate ∈ r.fates id ↔ id ∈ r.named fate := by
  cases fate <;> simp [fates, List.count_eq_zero]

theorem length_fates (r : ReloadReport) (id : UInt16) :
    (r.fates id).length =
      (r.started ++ r.replanned ++ r.restarted ++ r.unchanged ++ r.stopped).count id := by
  simp [fates, named, List.count_append]

theorem named_note (r : ReloadReport) (id : UInt16) (fate : Option Fate) (defect : Option Defect)
    (f : Fate) :
    (r.note id fate defect).named f = r.named f ++ if fate = some f then [id] else [] := by
  rcases fate with _ | (_ | _ | _ | _ | _) <;> cases f <;> cases defect <;>
    simp [note, add, reject, stop, named]

theorem fates_note_of_ne {id other : UInt16} (h : id ≠ other) (r : ReloadReport)
    (fate : Option Fate) (defect : Option Defect) :
    (r.note id fate defect).fates other = r.fates other := by
  have same (f : Fate) : ((r.note id fate defect).named f).count other =
      (r.named f).count other := by
    rw [named_note, List.count_append]
    split <;> simp [h]
  simp only [fates, same]

theorem fates_note_self {r : ReloadReport} {id : UInt16} (h : r.fates id = [])
    (fate : Option Fate) (defect : Option Defect) :
    (r.note id fate defect).fates id = fate.toList := by
  have none (f : Fate) : (r.named f).count id = 0 := by
    rw [List.count_eq_zero, ← mem_fates, h]
    exact List.not_mem_nil
  simp only [fates, named_note, List.count_append, none, Nat.zero_add]
  rcases fate with _ | (_ | _ | _ | _ | _) <;> simp

theorem rejected_note (r : ReloadReport) (id : UInt16) (fate : Option Fate)
    (defect : Option Defect) :
    (r.note id fate defect).rejected = r.rejected ++ defect.toList := by
  rcases fate with _ | (_ | _ | _ | _ | _) <;> cases defect <;> simp [note, add, reject, stop]

end ReloadReport

/-! ## One channel -/

/-- What becomes of an id, by the record that is listed for it and by what ran before, and what is
said of it.  The links in `old` were started before. -/
inductive Fared (old : List LinkId) :
    Option Channel → Option Running → Option Running → Option Fate → Prop
  | absent {listed : Option Channel} : (∀ c ∈ listed, ¬ c.CanRun) → Fared old listed none none none
  | stopped {listed : Option Channel} {r : Running} : (∀ c ∈ listed, ¬ c.CanRun) →
      Fared old listed (some r) none (some .stopped)
  | started {c : Channel} {r : Running} : c.CanRun → r.channel = c → r.link ∉ old →
      Fared old (some c) none (some r) (some .started)
  | restarted {c : Channel} {r r' : Running} : c.CanRun → r'.channel = c → r'.link ∉ old →
      Fared old (some c) (some r) (some r') (some .restarted)
  | replanned {c : Channel} {r r' : Running} : c.CanRun → r'.channel = c → r'.link = r.link →
      Fared old (some c) (some r) (some r') (some .replanned)
  | unchanged {c : Channel} {r : Running} : c.CanRun → r.channel.agrees c = true →
      Fared old (some c) (some r) (some r) (some .unchanged)

theorem Fared.mono {old more : List LinkId} {listed : Option Channel} {before after : Option Running}
    {fate : Option Fate} (h : Fared more listed before after fate) (sub : old ⊆ more) :
    Fared old listed before after fate := by
  cases h with
  | absent cannot => exact .absent cannot
  | stopped cannot => exact .stopped cannot
  | started can own new => exact .started can own fun member => new (sub member)
  | restarted can own new => exact .restarted can own fun member => new (sub member)
  | replanned can own same => exact .replanned can own same
  | unchanged can agrees => exact .unchanged can agrees

namespace Fared

variable {old : List LinkId} {listed : Option Channel} {before after : Option Running}
  {fate : Option Fate}

theorem isSome_iff (h : Fared old listed before after fate) :
    after.isSome = true ↔ ∃ c ∈ listed, c.CanRun := by
  cases h with
  | absent cannot => simpa using cannot
  | stopped cannot => simpa using cannot
  | started can _ _ => simpa using can
  | restarted can _ _ => simpa using can
  | replanned can _ _ => simpa using can
  | unchanged can _ => simpa using can

theorem agrees {c : Channel} {r : Running} (h : Fared old (some c) before (some r) fate)
    (numeric : c.IsNumeric) : r.channel.agrees c = true := by
  have same : c.agrees c = true := Channel.agrees_self numeric
  cases h with
  | started _ own _ => rwa [own]
  | restarted _ own _ => rwa [own]
  | replanned _ own _ => rwa [own]
  | unchanged _ agrees => exact agrees

/-- An id is passed over if nothing ran under it before and nothing can run. -/
theorem eq_none_iff (h : Fared old listed before after fate) :
    fate = none ↔ before = none ∧ ∀ c ∈ listed, ¬ c.CanRun := by
  cases h with
  | absent cannot => simpa using cannot
  | started can _ _ => simpa using can
  | stopped _ => simp
  | restarted _ _ _ => simp
  | replanned _ _ _ => simp
  | unchanged _ _ => simp

theorem of_started (h : Fared old listed before after (some .started)) :
    before = none ∧ ∃ r, after = some r ∧ r.link ∉ old := by
  cases h with
  | started _ _ new => exact ⟨rfl, _, rfl, new⟩

theorem of_restarted (h : Fared old listed before after (some .restarted)) :
    ∃ r r', before = some r ∧ after = some r' ∧ r'.link ∉ old := by
  cases h with
  | restarted _ _ new => exact ⟨_, _, rfl, rfl, new⟩

theorem of_replanned (h : Fared old listed before after (some .replanned)) :
    ∃ r r', before = some r ∧ after = some r' ∧ r'.link = r.link := by
  cases h with
  | replanned _ _ same => exact ⟨_, _, rfl, rfl, same⟩

theorem of_unchanged (h : Fared old listed before after (some .unchanged)) :
    ∃ r, before = some r ∧ after = some r := by
  cases h with
  | unchanged _ _ => exact ⟨_, rfl, rfl⟩

theorem of_stopped (h : Fared old listed before after (some .stopped)) :
    (∃ r, before = some r) ∧ after = none := by
  cases h with
  | stopped _ => exact ⟨⟨_, rfl⟩, rfl⟩

end Fared

theorem Channel.setupDefect?_of_unlinked {c : Channel} {plan : Plan} {fault : Fault}
    (planned : c.plan = .ok plan) (failed : ChannelLink.ofChannel c = .error fault) :
    c.setupDefect? = some (.channel c.id (.link fault)) := by
  simp [Channel.setupDefect?, planned, failed]

theorem Channel.setupDefect?_of_canRun {c : Channel} (h : c.CanRun) : c.setupDefect? = none := by
  obtain ⟨⟨plan, planned⟩, l, linked⟩ := h
  simp [Channel.setupDefect?, planned, linked]

theorem Channel.cannot_of_setupDefect? {c : Channel} {defect : Defect}
    (h : c.setupDefect? = some defect) : ∀ d ∈ some c, ¬ d.CanRun := by
  intro d member can
  cases member
  rw [Channel.setupDefect?_of_canRun can] at h
  cases h

end Fieldbus
