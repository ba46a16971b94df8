import Fieldbus.Proofs.Log.Deeds

/-!
# Segments that a sweep overlooks

A sweep leaves alone the path that was published when it looked, and published paths are those of
open segments (`Workplace.Runs.shown`).  But a record may come late: if the writer opens a segment
of an earlier day after the sweep has looked, the sweep overlooks it (`Workplace.Overlooks`).

Only a sweep that overlooks an open segment does something to its file
(`Workplace.Orderly.overlooks_of_touched`).  So at any time an open segment is in its place, or it
was overlooked (`Workplace.Runs.minded`).
-/

namespace Fieldbus.Log

namespace Workplace

variable {σ σ' : Workplace} {deed : Deed} {history : List (Workplace × Deed)} {channel : UInt16}
  {s : Segment.Open} {policies : Table UInt16 LogPolicy}

/-! ## Published paths -/

/-- An append to a channel has opened a segment and not published its path, or has failed. -/
def IsBetween (channel : UInt16) : Appending → Prop
  | .aimed record _ _ | .failed record => record.channel = channel
  | .idle | .published .. => False

/-- Published paths are those of open segments. -/
def Shown (σ : Workplace) : Prop :=
  ∀ channel, ¬ IsBetween channel σ.appending →
    σ.writer.active.get? channel = (σ.writer.segments.get? channel).map Segment.Open.path

theorem Shown.step (shown : Shown σ) (h : Orderly σ) (step : Step σ deed σ') : Shown σ' := by
  cases step with
  | @take record trouble w d found idle aims =>
    intro channel apart
    have foreign : channel ≠ record.channel := by
      rintro rfl
      cases found <;> exact apart rfl
    have before := shown channel (by rw [idle]; exact id)
    cases aims with
    | stays => exact before
    | opens opens =>
      show w.active.get? channel = (w.segments.get? channel).map Segment.Open.path
      rw [opens.active, opens.others channel foreign, before]
  | @publish record line s stage =>
    intro channel _
    have aimed : aim? σ.appending = some (record, line, s) := by rw [stage]; rfl
    show (σ.writer.active.insert record.channel s.path).get? channel = _
    rw [Table.get?_insert]
    split
    next own =>
      subst own
      show some s.path = (σ.writer.segments.get? record.channel).map Segment.Open.path
      rw [(h.aimed aimed).1]
      rfl
    next foreign => exact shown channel (by rw [stage]; exact foreign)
  | @write record line s cut w appending stage resizes ended =>
    intro channel _
    obtain ⟨size, same⟩ := resizes.segments channel
    show w.active.get? channel = (w.segments.get? channel).map Segment.Open.path
    rw [resizes.active, same, Option.map_map, shown channel (by rw [stage]; exact id)]
    rfl
  | @forget record failed =>
    intro channel _
    show (σ.writer.active.erase record.channel).get? channel =
      ((σ.writer.segments.erase record.channel).get? channel).map Segment.Open.path
    rw [Table.get?_erase, Table.get?_erase]
    split
    next => rfl
    next foreign => exact shown channel (by rw [failed]; exact fun same => foreign same.symm)
  | look | pass | delete | copy | remove => exact shown

/-- Whenever no append is between opening a segment and publishing its path, the published paths
are those of the open segments. -/
theorem Runs.shown (runs : Runs { writer := { policies } } history σ) : Shown σ := by
  induction runs with
  | start => exact fun _ _ => rfl
  | deed runs done ih => exact ih.step runs.orderly (runs.orderly.step_of_after done)

/-! ## Overlooking -/

/-- The sweep under way saw another path published than that of an open segment, and its policy
asks it to do something to segments of that day. -/
def Overlooks (σ : Workplace) (channel : UInt16) (s : Segment.Open) : Prop :=
  (∃ t ∈ σ.writer.segments.get? channel, t.path = s.path ∧ t.file = s.file) ∧
    ∃ sw ∈ σ.sweeping.sweep?, sw.channel = channel ∧ sw.active ≠ some s.path ∧
      LogPolicy.sweeping sw.policy sw.today s.day false ≠ .keep

instance (σ : Workplace) (channel : UInt16) (s : Segment.Open) :
    Decidable (σ.Overlooks channel s) :=
  inferInstanceAs (Decidable (_ ∧ _))

/-- The path that a deed deletes, copies into an archive or removes. -/
def touched? (σ : Workplace) : Deed → Option Path
  | .visit =>
    match σ.sweeping with
    | .visiting sw (name :: _) => if sw.verdict name = .keep then none else some (sw.path name)
    | _ => none
  | .remove => σ.sweeping.copied?
  | _ => none

theorem Orderly.overlooks (h : Orderly σ) {sw : Sweep} {name : String}
    (there : σ.writer.segments.get? channel = some s) (stage : σ.sweeping.sweep? = some sw)
    (same : sw.path name = s.path) (acts : sw.verdict name ≠ .keep) : σ.Overlooks channel s := by
  have held := h.held there
  obtain ⟨own, elsewhere, asked⟩ :=
    sw.verdict_segment held.twoDigit (same.trans held.path) acts
  refine ⟨⟨s, there, rfl, rfl⟩, sw, stage, own, ?_, ?_⟩
  · rwa [held.path]
  · rwa [asked]

/-- The sweep overlooks an open segment that it has copied. -/
theorem Orderly.overlooks_of_copied (h : Orderly σ)
    (there : σ.writer.segments.get? channel = some s)
    (copied : σ.sweeping.copied? = some s.path) : σ.Overlooks channel s := by
  cases stage : σ.sweeping with
  | copied sw name rest =>
    rw [stage] at copied
    have acts := Sweep.acts_of_compress (h.copied stage).1
    exact h.overlooks there (by rw [stage]; rfl) (Option.some.inj copied) acts
  | resting | looked | visiting =>
    rw [stage] at copied
    cases copied

/-- A sweep does something to an open segment only if it overlooks it. -/
theorem Orderly.overlooks_of_touched (h : Orderly σ)
    (there : σ.writer.segments.get? channel = some s) (touched : σ.touched? deed = some s.path) :
    σ.Overlooks channel s := by
  cases deed with
  | visit =>
    unfold touched? at touched
    dsimp only at touched
    split at touched
    next sw name rest stage =>
      split at touched
      next => cases touched
      next acts =>
        exact h.overlooks there (by rw [stage]; rfl) (Option.some.inj touched) acts
    next => cases touched
  | remove => exact h.overlooks_of_copied there touched
  | take | publish | write | forget | look | list => cases touched

theorem Runs.looked (runs : Runs { writer := { policies } } history σ) {sw : Sweep}
    (stage : σ.sweeping.sweep? = some sw) :
    ∃ step ∈ history, step.2 = .look sw.channel sw.policy sw.today ∧
      sw.active = step.1.writer.active.get? sw.channel := by
  induction runs with
  | start => cases stage
  | @deed history σ σ' deed runs done ih =>
    have carried (stage : σ.sweeping.sweep? = some sw) :
        ∃ step ∈ history ++ [(σ, deed)], step.2 = .look sw.channel sw.policy sw.today ∧
          sw.active = step.1.writer.active.get? sw.channel := by
      obtain ⟨step, member, look⟩ := ih stage
      exact ⟨step, List.mem_append_left _ member, look⟩
    cases runs.orderly.step_of_after done with
    | take | publish | write | forget => exact carried stage
    | look resting saw =>
      cases stage
      exact ⟨_, List.mem_append_right _ (List.mem_singleton_self _), rfl, saw⟩
    | pass _ _ same _ => exact carried (same sw stage)
    | delete before | copy before | remove before =>
      refine carried (Eq.trans ?_ stage)
      rw [before]
      rfl

/-- A segment that is overlooked is of an earlier day than that of the sweep.  The writer had
another segment open when the sweep looked, or was about to publish one. -/
theorem Runs.late_of_overlooks (runs : Runs { writer := { policies } } history σ)
    (overlooks : σ.Overlooks channel s) :
    ∃ step ∈ history, ∃ policy today, step.2 = .look channel policy today ∧
      s.day.ordinal < today.ordinal ∧
      (IsBetween channel step.1.appending ∨
        ∀ t ∈ step.1.writer.segments.get? channel, t.path ≠ s.path) := by
  obtain ⟨_, sw, stage, rfl, elsewhere, acts⟩ := overlooks
  obtain ⟨⟨τ, deed⟩, member, look, saw⟩ := runs.looked stage
  obtain ⟨_, _, reached, _⟩ := runs.of_mem member
  refine ⟨(τ, deed), member, sw.policy, sw.today, look, LogPolicy.lt_of_sweeping acts, ?_⟩
  by_cases between : IsBetween sw.channel τ.appending
  · exact .inl between
  · refine .inr fun t found same => elsewhere ?_
    rw [saw, reached.shown sw.channel between, found, ← same]
    rfl

/-- The segment was overlooked while its file was open. -/
def Overlooked (history : List (Workplace × Deed)) (channel : UInt16) (s : Segment.Open) : Prop :=
  ∃ step ∈ history, step.1.Overlooks channel s

/-! ## Files in their places -/

/-- The path of an open segment leads to its file, which is not copied yet. -/
def InPlace (σ : Workplace) (s : Segment.Open) : Prop :=
  σ.disk.item? s.path = some (.file s.file) ∧ σ.sweeping.copied? ≠ some s.path

instance (σ : Workplace) (s : Segment.Open) : Decidable (σ.InPlace s) :=
  inferInstanceAs (Decidable (_ ∧ _))

theorem InPlace.loses (inPlace : σ.InPlace s) {path : Path} {d : Disk}
    (loses : σ.disk.Loses d path) (apart : path ≠ s.path) {stage : Sweeping.Stage}
    (free : stage.copied? = none) : InPlace { σ with disk := d, sweeping := stage } s := by
  refine ⟨?_, Sweeping.Stage.copied?_ne free s.path⟩
  show d.item? s.path = _
  rw [loses.items, if_neg apart.symm, inPlace.1]

/-- Only a sweep that overlooks an open segment displaces its file. -/
theorem Orderly.inPlace_step (h : Orderly σ) (step : Step σ deed σ')
    (there : σ.writer.segments.get? channel = some s) (inPlace : σ.InPlace s) :
    σ'.InPlace s ∨ σ.Overlooks channel s := by
  cases step with
  | take _ aims =>
    refine .inl ⟨?_, inPlace.2⟩
    cases aims with
    | stays grows => exact grows.files _ _ inPlace.1
    | opens _ grows => exact grows.files _ _ inPlace.1
  | publish | write | forget => exact .inl inPlace
  | look => exact .inl ⟨inPlace.1, Sweeping.Stage.copied?_ne rfl s.path⟩
  | pass _ free => exact .inl ⟨inPlace.1, Sweeping.Stage.copied?_ne free s.path⟩
  | @delete sw name rest d stage deletes loses =>
    by_cases same : sw.path name = s.path
    · have acts := Sweep.acts_of_delete deletes
      exact .inr (h.overlooks there (by rw [stage]; rfl) same acts)
    · exact .inl (inPlace.loses loses same rfl)
  | @copy sw name rest _ _ _ _ d archive stage compresses _ path _ grows =>
    by_cases same : sw.path name = s.path
    · have acts := Sweep.acts_of_compress compresses
      exact .inr (h.overlooks there (by rw [stage]; rfl) same acts)
    · exact .inl ⟨grows.files _ _ inPlace.1, fun copied => same (Option.some.inj copied)⟩
  | @remove sw name rest d stage loses =>
    have apart : sw.path name ≠ s.path := by
      intro same
      apply inPlace.2
      rw [stage, ← same]
      rfl
    exact .inl (inPlace.loses loses apart rfl)

/-- Each open segment is in its place, or it was overlooked. -/
def Minded (history : List (Workplace × Deed)) (σ : Workplace) : Prop :=
  ∀ channel s, σ.writer.segments.get? channel = some s →
    σ.InPlace s ∨ σ.Overlooks channel s ∨ Overlooked history channel s

/-- What is open after a deed was open before, or it is in its place, or the sweep has copied it
already. -/
theorem Orderly.opened (h : Orderly σ) (step : Step σ deed σ')
    (there : σ'.writer.segments.get? channel = some s) :
    (∃ size, σ.writer.segments.get? channel = some { s with size := size }) ∨
      σ'.InPlace s ∨ σ'.Overlooks channel s := by
  have after := h.step step
  cases step with
  | @take record trouble w d found _ aims =>
    cases aims with
    | stays => exact .inl ⟨s.size, there⟩
    | opens opens _ _ named =>
      by_cases own : channel = record.channel
      · subst own
        have there' : w.segments.get? record.channel = some s := there
        rw [opens.own] at there'
        cases there'
        -- The search may find the segment that the sweep is about to remove.
        refine .inr ?_
        by_cases copied : σ.sweeping.copied? = some s.path
        · exact .inr (after.overlooks_of_copied there copied)
        · exact .inl ⟨named, copied⟩
      · exact .inl ⟨s.size, (opens.others channel own).symm.trans there⟩
  | write _ resizes =>
    obtain ⟨size, same⟩ := resizes.segments channel
    rw [same] at there
    obtain ⟨t, found, rfl⟩ := Option.map_eq_some_iff.mp there
    exact .inl ⟨t.size, found⟩
  | forget =>
    rw [Writer.forget, Table.get?_erase] at there
    split at there
    next => cases there
    next => exact .inl ⟨s.size, there⟩
  | publish | look | pass | delete | copy | remove => exact .inl ⟨s.size, there⟩

theorem Minded.step (minded : Minded history σ) (h : Orderly σ) (step : Step σ deed σ') :
    Minded (history ++ [(σ, deed)]) σ' := by
  intro channel s there
  rcases h.opened step there with ⟨size, before⟩ | inPlace | overlooks
  · rcases minded channel _ before with inPlace | overlooks | ⟨earlier, member, overlooks⟩
    · rcases h.inPlace_step step before inPlace with still | overlooks
      · exact .inl still
      · exact .inr (.inr ⟨_, List.mem_append_right _ (List.mem_singleton_self _), overlooks⟩)
    · exact .inr (.inr ⟨_, List.mem_append_right _ (List.mem_singleton_self _), overlooks⟩)
    · exact .inr (.inr ⟨earlier, List.mem_append_left _ member, overlooks⟩)
  · exact .inl inPlace
  · exact .inr (.inl overlooks)

theorem Runs.minded (runs : Runs { writer := { policies } } history σ) : Minded history σ := by
  induction runs with
  | start => exact fun _ _ there => by cases there
  | deed runs done ih => exact ih.step runs.orderly (runs.orderly.step_of_after done)

end Workplace

end Fieldbus.Log
