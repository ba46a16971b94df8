import Fieldbus.Proofs.Log.Holding
import Fieldbus.Proofs.Log.Workplace

/-!
# What the writer and a sweep do

Whatever the writer and the sweeps do and wherever the disk fails an append, the disk stays one of
segments and archives, what the writer has open is held, and a segment that is copied stays until
it is removed (`Workplace.Orderly`).  In an orderly workplace a deed does one of a few things
(`Workplace.Step`), and later proofs go by them.

Names that a sweep acts on are names of segments and archives of its own channel, and the day in a
name is the day of the segment (`Sweep.verdict_segment`, `Sweep.verdict_archive`).
-/

namespace Fieldbus.Log

open Writer (segmentPath)

/-! ## Verdicts -/

theorem LogPolicy.sweeping_eq_delete_iff {policy : LogPolicy} {today day : Date} {archived : Bool} :
    LogPolicy.sweeping policy today day archived = .delete ↔
      (policy.retentionDays : Int) < today.ordinal - day.ordinal := by
  unfold LogPolicy.sweeping
  dsimp only
  split_ifs with old packs
  · exact iff_of_true rfl old
  · exact iff_of_false nofun old
  · exact iff_of_false nofun old

theorem LogPolicy.sweeping_eq_compress_iff {policy : LogPolicy} {today day : Date}
    {archived : Bool} :
    LogPolicy.sweeping policy today day archived = .compress ↔
      ¬ (policy.retentionDays : Int) < today.ordinal - day.ordinal ∧ archived = false ∧
        day.ordinal < today.ordinal ∧
        ∃ after ∈ policy.compressAfterDays, (after : Int) ≤ today.ordinal - day.ordinal := by
  have earlier : 0 < today.ordinal - day.ordinal ↔ day.ordinal < today.ordinal := by omega
  obtain ⟨level, retention, bytes, compression⟩ := policy
  unfold LogPolicy.sweeping
  dsimp only
  split_ifs with old packs
  · exact iff_of_false nofun fun h => h.1 old
  · refine iff_of_true rfl ⟨old, ?_⟩
    cases compression with
    | none => simp at packs
    | some after => simpa [earlier, and_assoc] using packs
  · refine iff_of_false nofun fun h => packs ?_
    cases compression with
    | none => simp at h
    | some after => simpa [earlier, and_assoc] using h.2

/-- A sweep does something to segments of earlier days only. -/
theorem LogPolicy.lt_of_sweeping {policy : LogPolicy} {today day : Date} {archived : Bool}
    (acts : LogPolicy.sweeping policy today day archived ≠ .keep) :
    day.ordinal < today.ordinal := by
  cases verdict : LogPolicy.sweeping policy today day archived with
  | keep => exact absurd verdict acts
  | delete =>
    have old := LogPolicy.sweeping_eq_delete_iff.mp verdict
    omega
  | compress => exact (LogPolicy.sweeping_eq_compress_iff.mp verdict).2.2.1

theorem LogPolicy.sweeping_archived (policy : LogPolicy) (today day : Date) :
    LogPolicy.sweeping policy today day true ≠ .compress := by
  intro compresses
  cases (LogPolicy.sweeping_eq_compress_iff.mp compresses).2.1

namespace Sweep

variable {sw : Sweep} {name : String} {channel : UInt16} {day : Date} {number : Nat}

theorem acts_of_delete (deletes : sw.verdict name = .delete) : sw.verdict name ≠ .keep := by
  rw [deletes]
  decide

theorem acts_of_compress (compresses : sw.verdict name = .compress) :
    sw.verdict name ≠ .keep := by
  rw [compresses]
  decide

/-- A sweep acts on a name only if it can read it and has not seen it published, and it does what its
policy asks for the day in the name. -/
theorem verdict_eq (acts : sw.verdict name ≠ .keep) :
    ∃ day archived, Segment.parseName? sw.channel name = some (day, archived) ∧
      sw.active ≠ some (sw.path name) ∧
      LogPolicy.sweeping sw.policy sw.today day archived = sw.verdict name := by
  unfold verdict sweepingOf at acts ⊢
  cases parsed : Segment.parseName? sw.channel name with
  | none =>
    rw [parsed] at acts
    exact absurd rfl acts
  | some found =>
    obtain ⟨day, archived⟩ := found
    rw [parsed] at acts
    simp only at acts ⊢
    by_cases known : sw.active = some (sw.path name)
    · rw [if_pos known] at acts
      exact absurd rfl acts
    · rw [if_neg known]
      exact ⟨day, archived, rfl, known, rfl⟩

/-- A sweep that does something to a segment belongs to its channel and has looked elsewhere, and
does what its policy asks for the segment's day. -/
theorem verdict_segment (twoDigit : day.TwoDigit)
    (same : sw.path name = segmentPath channel day number) (acts : sw.verdict name ≠ .keep) :
    sw.channel = channel ∧ sw.active ≠ some (segmentPath channel day number) ∧
      LogPolicy.sweeping sw.policy sw.today day false = sw.verdict name := by
  obtain ⟨folders, names⟩ := List.append_inj' same rfl
  obtain rfl := channelFolder_inj folders
  cases names
  obtain ⟨read, archived, parsed, elsewhere, asked⟩ := verdict_eq acts
  obtain ⟨rfl, rfl⟩ := Segment.eq_of_parseName?_name twoDigit parsed
  exact ⟨rfl, elsewhere, asked⟩

/-- A sweep that does something to an archive belongs to its channel, and does what its policy asks
for the archive of the segment's day. -/
theorem verdict_archive (twoDigit : day.TwoDigit)
    (same : sw.path name = archivePath (segmentPath channel day number))
    (acts : sw.verdict name ≠ .keep) :
    sw.channel = channel ∧ LogPolicy.sweeping sw.policy sw.today day true = sw.verdict name := by
  rw [archivePath_segmentPath] at same
  obtain ⟨folders, names⟩ := List.append_inj' same rfl
  obtain rfl := channelFolder_inj folders
  cases names
  obtain ⟨read, archived, parsed, _, asked⟩ := verdict_eq acts
  obtain ⟨rfl, rfl⟩ := Segment.eq_of_parseName?_archiveName twoDigit parsed
  exact ⟨rfl, asked⟩

end Sweep

namespace Workplace

variable {σ σ' : Workplace} {deed : Deed} {history : List (Workplace × Deed)}

/-! ## What a deed does -/

/-- The record that is being appended, its line and the segment for that. -/
def aim? : Appending → Option (Record × String × Segment.Open)
  | .aimed record line s | .published record line s => some (record, line, s)
  | .idle | .failed _ => none

/-- What is put into a segment of a line that may be cut. -/
def piece (line : String) : Option Nat → String
  | none => line
  | some written => String.ofList (line.toList.take written)

/-- Where an append stands that has looked for its segment. -/
def sought (record : Record) (line : String) : Option Segment.Open → Appending
  | some s => .aimed record line s
  | none => .failed record

/-- The writer has the segments it had, whose sizes may differ. -/
structure Resizes (w w' : Writer) : Prop where
  active : w'.active = w.active
  segments : ∀ channel, ∃ size : Segment.Open → Nat,
    w'.segments.get? channel = (w.segments.get? channel).map fun s => { s with size := size s }

/-- What is in order at any time. -/
structure Orderly (σ : Workplace) : Prop where
  tidy : σ.disk.Tidy
  held : ∀ {channel s}, σ.writer.segments.get? channel = some s → s.Held σ.disk channel
  aimed : ∀ {record line s}, aim? σ.appending = some (record, line, s) →
    σ.writer.segments.get? record.channel = some s ∧ s.day = record.time.date ∧
      line = record.line (σ.writer.policy record.channel).level
  /-- A segment that is copied is still there. -/
  copied : ∀ {sw name rest}, σ.sweeping = .copied sw name rest →
    sw.verdict name = .compress ∧ ∃ channel day number file, day.TwoDigit ∧
      sw.path name = segmentPath channel day number ∧
      σ.disk.item? (sw.path name) = some (.file file)

/-- What a deed does in an orderly workplace. -/
inductive Step (σ : Workplace) : Deed → Workplace → Prop
  | take {record : Record} {trouble : Option Trouble} {w : Writer} {d : Disk}
    {found : Option Segment.Open} :
    σ.appending = .idle → Aims σ.writer σ.disk record.channel record.time.date (w, d, found) →
    Step σ (.take record trouble)
      ⟨w, d, sought record (record.line (σ.writer.policy record.channel).level) found, σ.sweeping⟩
  | publish {record : Record} {line : String} {s : Segment.Open} :
    σ.appending = .aimed record line s →
    Step σ .publish
      ⟨σ.writer.publish record.channel s, σ.disk, .published record line s, σ.sweeping⟩
  | write {record : Record} {line : String} {s : Segment.Open} {cut : Option Nat} {w : Writer}
    {appending : Appending} :
    σ.appending = .published record line s → Resizes σ.writer w →
    appending = .idle ∨ appending = .failed record →
    Step σ (.write cut)
      ⟨w, σ.disk.append s.file (.text (piece line cut)), appending, σ.sweeping⟩
  | forget {record : Record} :
    σ.appending = .failed record →
    Step σ .forget ⟨σ.writer.forget record.channel, σ.disk, .idle, σ.sweeping⟩
  | look {sw : Sweep} :
    σ.sweeping = .resting → sw.active = σ.writer.active.get? sw.channel →
    Step σ (.look sw.channel sw.policy sw.today) { σ with sweeping := .looked sw }
  /-- The sweep goes on or ends, and leaves the disk as it is. -/
  | pass {deed : Deed} {stage : Sweeping.Stage} :
    σ.sweeping.copied? = none → stage.copied? = none →
    (∀ sw ∈ stage.sweep?, σ.sweeping.sweep? = some sw) → deed = .list ∨ deed = .visit →
    Step σ deed { σ with sweeping := stage }
  | delete {sw : Sweep} {name : String} {rest : List String} {d : Disk} :
    σ.sweeping = .visiting sw (name :: rest) → sw.verdict name = .delete →
    σ.disk.Loses d (sw.path name) →
    Step σ .visit { σ with disk := d, sweeping := .visiting sw rest }
  | copy {sw : Sweep} {name : String} {rest : List String} {channel : UInt16} {day : Date}
    {number file : Nat} {d : Disk} {archive : Nat} :
    σ.sweeping = .visiting sw (name :: rest) → sw.verdict name = .compress → day.TwoDigit →
    sw.path name = segmentPath channel day number →
    σ.disk.item? (segmentPath channel day number) = some (.file file) →
    σ.disk.Grows d (· = archivePath (segmentPath channel day number)) →
    d.item? (archivePath (segmentPath channel day number)) = some (.file archive) →
    Step σ .visit
      { σ with
        disk := d.append archive (.packed (σ.disk.plainText (segmentPath channel day number)))
        sweeping := .copied sw name rest }
  | remove {sw : Sweep} {name : String} {rest : List String} {d : Disk} :
    σ.sweeping = .copied sw name rest → σ.disk.Loses d (sw.path name) →
    Step σ .remove { σ with disk := d, sweeping := .visiting sw rest }

theorem resizes_refl (w : Writer) : Resizes w w where
  active := rfl
  segments _ := ⟨Segment.Open.size, Option.map_id'.symm⟩

theorem resizes_insert {w : Writer} {channel : UInt16} {s : Segment.Open}
    (there : w.segments.get? channel = some s) (size : Nat) :
    Resizes w { w with segments := w.segments.insert channel { s with size := size } } where
  active := rfl
  segments other := by
    by_cases own : channel = other
    · subst own
      exact ⟨fun _ => size, by rw [Table.get?_insert, if_pos rfl, there]; rfl⟩
    · refine ⟨Segment.Open.size, ?_⟩
      rw [Table.get?_insert, if_neg own]
      exact Option.map_id'.symm

/-- A file that a sweep compresses is a segment, so it is copied unless it is missing. -/
theorem Orderly.packs (h : Orderly σ) {sw : Sweep} {name : String} {rest : List String}
    (stage : σ.sweeping = .visiting sw (name :: rest)) (compresses : sw.verdict name = .compress) :
    pack σ.disk (sw.path name) = (σ.disk, false) ∨
      ∃ d, pack σ.disk (sw.path name) = (d, true) ∧
        Step σ .visit { σ with disk := d, sweeping := .copied sw name rest } := by
  cases item : σ.disk.item? (sw.path name) with
  | none =>
    have missing : σ.disk.exists? (sw.path name) = false := by
      rw [Disk.exists?, item]
      rfl
    exact .inl (by simp [pack, missing])
  | some found =>
    cases found with
    | folder => exact absurd (h.tidy.sound.folder item) (by simp [Sweep.path, channelFolder])
    | file n =>
      have acts := Sweep.acts_of_compress compresses
      generalize same : sw.path name = path at item
      cases h.tidy.named item with
      | archive twoDigit =>
        have asked := (sw.verdict_archive twoDigit same acts).2
        exact (LogPolicy.sweeping_archived _ _ _ (asked.trans compresses)).elim
      | segment twoDigit =>
        obtain ⟨grown, archive, grows, made, packed⟩ := h.tidy.sound.pack item
        exact .inr ⟨_, packed, .copy stage compresses twoDigit same item grows made⟩

theorem Orderly.step_of_take (h : Orderly σ) {record : Record} {trouble : Option Trouble}
    (done : σ.after (.take record trouble) = some σ') : Step σ (.take record trouble) σ' := by
  simp only [after] at done
  split at done
  next idle =>
    have aims : Aims σ.writer σ.disk record.channel record.time.date
        (σ.writer.target σ.disk record.channel record.time.date
          (record.line (σ.writer.policy record.channel).level).utf8ByteSize trouble) :=
      target_aims h.tidy.sound (Instant.date_twoDigit record.time) (fun _ there => h.held there) _
    split at done
    next w d s target =>
      cases done
      rw [target] at aims
      exact .take idle aims
    next w d target =>
      cases done
      rw [target] at aims
      exact .take idle aims
  next => cases done

theorem Orderly.step_of_write (h : Orderly σ) {cut : Option Nat}
    (done : σ.after (.write cut) = some σ') : Step σ (.write cut) σ' := by
  simp only [after] at done
  split at done
  next record line s stage =>
    have aimed : aim? σ.appending = some (record, line, s) := by rw [stage]; rfl
    have there := (h.aimed aimed).1
    cases cut with
    | none =>
      cases done
      exact .write stage (resizes_insert there _) (.inl rfl)
    | some written =>
      cases done
      exact .write stage (resizes_refl _) (.inr rfl)
  next => cases done

theorem step_of_list (done : σ.after .list = some σ') : Step σ .list σ' := by
  simp only [after] at done
  split at done
  next sw stage =>
    have free : σ.sweeping.copied? = none := by rw [stage]; rfl
    split at done
    next =>
      cases done
      exact .pass free rfl (fun _ same => by rw [stage]; exact same) (.inl rfl)
    next =>
      cases done
      exact .pass free rfl (fun _ none => by cases none) (.inl rfl)
  next => cases done

theorem Orderly.step_of_visit (h : Orderly σ) (done : σ.after .visit = some σ') :
    Step σ .visit σ' := by
  simp only [after] at done
  split at done
  next stage =>
    cases done
    exact .pass (by rw [stage]; rfl) rfl (fun _ none => by cases none) (.inr rfl)
  next sw name rest stage =>
    have free : σ.sweeping.copied? = none := by rw [stage]; rfl
    split at done
    next =>
      cases done
      exact .pass free rfl (fun _ same => by rw [stage]; exact same) (.inr rfl)
    next deletes =>
      split at done
      next removed =>
        cases done
        exact .delete stage deletes (h.tidy.sound.loses removed)
      next =>
        cases done
        exact .pass free rfl (fun _ none => by cases none) (.inr rfl)
    next compresses =>
      rcases h.packs stage compresses with failed | ⟨d, packed, copies⟩
      · rw [failed] at done
        cases done
        exact .pass free rfl (fun _ none => by cases none) (.inr rfl)
      · rw [packed] at done
        cases done
        exact copies
  next => cases done

/-- A segment that is copied is still there, so its removal does not fail. -/
theorem Orderly.step_of_remove (h : Orderly σ) (done : σ.after .remove = some σ') :
    Step σ .remove σ' := by
  simp only [after] at done
  split at done
  next sw name rest stage =>
    obtain ⟨_, _, _, _, file, _, _, there⟩ := h.copied stage
    split at done
    next removed =>
      cases done
      exact .remove stage (h.tidy.sound.loses removed)
    next failed =>
      simp only [Disk.removeFile?, there] at failed
      cases failed
  next => cases done

/-- A deed does one of these things. -/
theorem Orderly.step_of_after (h : Orderly σ) (done : σ.after deed = some σ') :
    Step σ deed σ' := by
  cases deed with
  | take record trouble => exact h.step_of_take done
  | publish =>
    simp only [after] at done
    split at done
    next stage =>
      cases done
      exact .publish stage
    next => cases done
  | write cut => exact h.step_of_write done
  | forget =>
    simp only [after] at done
    split at done
    next failed =>
      cases done
      exact .forget failed
    next => cases done
  | look channel policy today =>
    simp only [after] at done
    split at done
    next resting =>
      cases done
      exact @Step.look σ ⟨channel, policy, today, σ.writer.active.get? channel⟩ resting rfl
    next => cases done
  | list => exact step_of_list done
  | visit => exact h.step_of_visit done
  | remove => exact h.step_of_remove done

/-! ## Order -/

theorem Resizes.held {w w' : Writer} (resizes : Resizes w w') {d : Disk} {channel : UInt16}
    (held : ∀ s, w.segments.get? channel = some s → s.Held d channel) {t : Segment.Open}
    (there : w'.segments.get? channel = some t) : t.Held d channel := by
  obtain ⟨size, same⟩ := resizes.segments channel
  rw [same] at there
  obtain ⟨s, found, rfl⟩ := Option.map_eq_some_iff.mp there
  exact (held s found).resize _

theorem start_orderly (policies : Table UInt16 LogPolicy) :
    Orderly { writer := { policies } } where
  tidy := Disk.empty_tidy
  held there := by cases there
  aimed at_ := by cases at_
  copied stage := by cases stage

/-- Taking a record opens segments of its own channel and day only. -/
theorem Orderly.take (h : Orderly σ) {record : Record} {w : Writer} {d : Disk}
    {found : Option Segment.Open}
    (aims : Aims σ.writer σ.disk record.channel record.time.date (w, d, found)) :
    Orderly ⟨w, d, sought record (record.line (σ.writer.policy record.channel).level) found,
      σ.sweeping⟩ := by
  have twoDigit := Instant.date_twoDigit record.time
  cases aims with
  | stays grows own =>
    have segments : σ.disk.Grows d (IsSegmentOf record.channel record.time.date) :=
      grows.mono fun _ => False.elim
    refine ⟨h.tidy.grows twoDigit segments, fun there => (h.held there).grows grows id,
      fun aimed => ?_, fun stage => ?_⟩
    · cases found with
      | none => cases aimed
      | some s =>
        simp only [sought, aim?, Option.some.injEq, Prod.mk.injEq] at aimed
        obtain ⟨rfl, rfl, rfl⟩ := aimed
        obtain ⟨kept, day⟩ := own _ rfl
        exact ⟨kept, day, rfl⟩
    · obtain ⟨verdict, channel, day, number, file, valid, path, there⟩ := h.copied stage
      exact ⟨verdict, channel, day, number, file, valid, path, grows.files _ _ there⟩
  | opens opens grows held there same =>
    refine ⟨h.tidy.grows twoDigit grows, fun {channel s} kept => ?_, fun aimed => ?_,
      fun stage => ?_⟩
    · by_cases own : channel = record.channel
      · subst own
        rw [opens.own] at kept
        cases kept
        exact held
      · rw [opens.others channel own] at kept
        have before := h.held kept
        refine before.grows grows fun ⟨number, path⟩ => ?_
        exact Writer.segmentPath_ne own _ _ _ _ (before.path.symm.trans path)
    · cases found with
      | none => cases aimed
      | some t =>
        simp only [sought, aim?, Option.some.injEq, Prod.mk.injEq] at aimed
        obtain ⟨rfl, rfl, rfl⟩ := aimed
        obtain ⟨rfl, day⟩ := same _ rfl
        refine ⟨opens.own, day, ?_⟩
        show _ = record.line (w.policy record.channel).level
        rw [Writer.policy, Writer.policy, opens.policies]
    · obtain ⟨verdict, channel, day, number, file, valid, path, there⟩ := h.copied stage
      exact ⟨verdict, channel, day, number, file, valid, path, grows.files _ _ there⟩

/-- Order is kept when a file loses its path. -/
theorem Orderly.loses (h : Orderly σ) {path : Path} {d : Disk} (loses : σ.disk.Loses d path)
    {stage : Sweeping.Stage} (free : stage.copied? = none) :
    Orderly { σ with disk := d, sweeping := stage } where
  tidy := h.tidy.loses loses
  held there := (h.held there).loses loses
  aimed := h.aimed
  copied same := by
    have same : stage = .copied _ _ _ := same
    rw [same] at free
    cases free

/-- Every deed keeps order. -/
theorem Orderly.step (h : Orderly σ) (step : Step σ deed σ') : Orderly σ' := by
  cases step with
  | take idle aims => exact h.take aims
  | publish stage =>
    refine ⟨h.tidy, h.held, fun same => ?_, h.copied⟩
    cases same
    exact h.aimed (by rw [stage]; rfl)
  | @write record line s cut w appending stage resizes ended =>
    have aimed : aim? σ.appending = some (record, line, s) := by rw [stage]; rfl
    have held := h.held (h.aimed aimed).1
    refine ⟨h.tidy.append held.file held.ne_archive _, fun there => ?_, fun same => ?_, h.copied⟩
    · exact resizes.held (fun t found => (h.held found).append _ _) there
    · rcases ended with rfl | rfl <;> cases same
  | forget =>
    refine ⟨h.tidy, fun {channel s} there => ?_, fun same => (by cases same), h.copied⟩
    rw [Writer.forget, Table.get?_erase] at there
    split at there
    next => cases there
    next => exact h.held there
  | look resting saw => exact ⟨h.tidy, h.held, h.aimed, fun same => by cases same⟩
  | pass _ free _ _ =>
    refine ⟨h.tidy, h.held, h.aimed, fun same => ?_⟩
    dsimp only at same
    rw [same] at free
    cases free
  | delete _ _ loses => exact h.loses loses rfl
  | @copy sw name rest channel day number file d archive _ compresses twoDigit same there grows
      made =>
    refine ⟨h.tidy.archived twoDigit grows made _, fun {channel' s} found => ?_, h.aimed,
      fun stage => ?_⟩
    · have held := h.held found
      refine (held.grows grows fun path => ?_).append _ _
      exact archivePath_ne_segmentPath _ _ _ _ _ _ (path.symm.trans held.path)
    · cases stage
      refine ⟨compresses, channel, day, number, file, twoDigit, same, ?_⟩
      rw [same]
      exact grows.files _ _ there
  | remove _ loses => exact h.loses loses rfl

theorem Runs.orderly {policies : Table UInt16 LogPolicy}
    (runs : Runs { writer := { policies } } history σ) : Orderly σ := by
  induction runs with
  | start => exact start_orderly policies
  | deed _ done ih => exact ih.step (ih.step_of_after done)

end Workplace

end Fieldbus.Log
