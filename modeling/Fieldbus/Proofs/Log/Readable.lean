import Fieldbus.Proofs.Log.Overlooking

/-!
# What is kept of the log

What is written to a segment in its place stays readable, from the segment or from its archive, as
long as its day is within the retention window (`Workplace.Runs.text_eq`).  What is written to a
segment that was overlooked may be lost: its file is copied into the archive while it is open, and
loses its path.
-/

namespace Fieldbus.Log

open Writer (segmentPath)

namespace Workplace

variable {σ σ' : Workplace} {deed : Deed} {history : List (Workplace × Deed)} {channel : UInt16}
  {s : Segment.Open} {policies : Table UInt16 LogPolicy}

/-! ## Texts -/

/-- What can be read of a segment and its archive, but for what is there twice. -/
def text (σ : Workplace) (path : Path) : String :=
  σ.disk.archiveText path ++
    if σ.sweeping.copied? = some path then "" else σ.disk.plainText path

/-- What a deed writes to a segment that is in its place. -/
def written? (path : Path) : Workplace × Deed → Option String
  | (σ, .write cut) =>
    match σ.appending with
    | .published _ line s => if s.path = path ∧ σ.InPlace s then some (piece line cut) else none
    | _ => none
  | _ => none

/-- What a sweep of a channel goes by that begins with a deed. -/
def begins? (channel : UInt16) : Deed → Option (LogPolicy × Date)
  | .look other policy today => if other = channel then some (policy, today) else none
  | _ => none

/-- A day is within the retention window of every sweep of a channel. -/
def Retained (history : List (Workplace × Deed)) (channel : UInt16) (day : Date) : Prop :=
  ∀ step ∈ history, ∀ begun ∈ begins? channel step.2,
    begun.2.ordinal - day.ordinal ≤ begun.1.retentionDays

instance (history : List (Workplace × Deed)) (channel : UInt16) (day : Date) :
    Decidable (Retained history channel day) :=
  inferInstanceAs (Decidable (∀ step ∈ history, ∀ begun ∈ begins? channel step.2, _))

section Texts

variable {day : Date} {number : Nat}

theorem text_congr (disk : σ'.disk = σ.disk) (copied : σ'.sweeping.copied? = σ.sweeping.copied?)
    (path : Path) : σ'.text path = σ.text path := by
  rw [text, text, disk, copied]

theorem text_unwritten {path : Path} (silent : written? path (σ, deed) = none)
    (same : σ'.text path = σ.text path) :
    σ'.text path = σ.text path ++ (written? path (σ, deed)).getD "" := by
  rw [silent, same]
  exact String.append_empty.symm

/-- Writing a line adds it to the text of its segment, if that is in its place. -/
theorem Orderly.text_write (h : Orderly σ) {record : Record} {line : String}
    (stage : σ.appending = .published record line s) (cut : Option Nat) (writer : Writer)
    (appending : Appending) (path : Path)
    (own : path = segmentPath channel day number) :
    text ⟨writer, σ.disk.append s.file (.text (piece line cut)), appending, σ.sweeping⟩ path =
      σ.text path ++ (written? path (σ, .write cut)).getD "" := by
  have aimed : aim? σ.appending = some (record, line, s) := by rw [stage]; rfl
  have held := h.held (h.aimed aimed).1
  have archive : (σ.disk.append s.file (.text (piece line cut))).archiveText path =
      σ.disk.archiveText path := by
    rw [own]
    exact Disk.archiveText_congr (Disk.contentAt?_append_of_ne (held.ne_archive _ _ _) _)
  have writes : written? path (σ, .write cut) =
      if s.path = path ∧ σ.InPlace s then some (piece line cut) else none := by
    simp only [written?, stage]
  rw [text, text, archive, writes]
  by_cases copied : σ.sweeping.copied? = some path
  · have displaced : ¬ (s.path = path ∧ σ.InPlace s) := fun ⟨same, inPlace⟩ =>
      inPlace.2 (same ▸ copied)
    simp [copied, displaced]
  · rw [if_neg copied, if_neg copied]
    by_cases there : σ.disk.item? path = some (.file s.file)
    · have same : s.path = path := (held.only there).symm
      have inPlace : σ.InPlace s := ⟨same ▸ there, same ▸ copied⟩
      rw [if_pos ⟨same, inPlace⟩, Disk.plainText_append there, Option.getD_some,
        String.append_assoc]
    · have displaced : ¬ (s.path = path ∧ σ.InPlace s) := fun ⟨same, inPlace⟩ =>
        there (same ▸ inPlace.1)
      rw [if_neg displaced, Disk.plainText_congr (Disk.contentAt?_append_of_ne there _)]
      simp

/-- Deleting what is neither the segment nor its archive leaves the text. -/
theorem text_loses {path lost : Path} {d : Disk} (loses : σ.disk.Loses d lost)
    (segment : path ≠ lost) (archive : archivePath path ≠ lost) {stage : Sweeping.Stage}
    (copied : σ.sweeping.copied? = some path ↔ stage.copied? = some path) :
    text { σ with disk := d, sweeping := stage } path = σ.text path := by
  simp only [text, Disk.archiveText_congr (loses.contentAt?_other archive),
    Disk.plainText_congr (loses.contentAt?_other segment), copied]

/-- A segment that is copied is read from its archive. -/
theorem Orderly.text_copy (h : Orderly σ) {sw : Sweep} {name : String} {rest : List String}
    {channel' : UInt16} {day' : Date} {number' archive : Nat} {d : Disk}
    (free : σ.sweeping.copied? = none) (same : sw.path name = segmentPath channel' day' number')
    (grows : σ.disk.Grows d (· = archivePath (segmentPath channel' day' number')))
    (made : d.item? (archivePath (segmentPath channel' day' number')) = some (.file archive)) :
    text ⟨σ.writer, d.append archive
        (.packed (σ.disk.plainText (segmentPath channel' day' number'))), σ.appending,
        .copied sw name rest⟩ (segmentPath channel day number) =
      σ.text (segmentPath channel day number) := by
  have only {path : Path} (there : d.item? path = some (.file archive)) :
      path = archivePath (segmentPath channel' day' number') := grows.sound.onePath there made
  by_cases own : segmentPath channel' day' number' = segmentPath channel day number
  · have before := Sweeping.Stage.copied?_ne free (segmentPath channel day number)
    have after : (Sweeping.Stage.copied sw name rest).copied? =
        some (segmentPath channel day number) := congrArg some (same.trans own)
    simp only [text, if_pos after, if_neg before]
    rw [← own, h.tidy.archiveText_archived grows made, String.append_empty]
  · have before := Sweeping.Stage.copied?_ne free (segmentPath channel day number)
    have after : (Sweeping.Stage.copied sw name rest).copied? ≠
        some (segmentPath channel day number) := fun copied =>
      own (same.symm.trans (Option.some.inj copied))
    simp only [text, if_neg after, if_neg before]
    rw [Disk.archiveText_congr
        (Disk.contentAt?_append_of_ne (fun there => own (archivePath_inj (only there)).symm) _),
      Disk.plainText_congr
        (Disk.contentAt?_append_of_ne
          (fun there => archivePath_ne_segmentPath _ _ _ _ _ _ (only there).symm) _),
      grows.archiveText_eq h.tidy.sound, grows.plainText_eq h.tidy.sound]

/-- A segment that is copied may be removed. -/
theorem Orderly.text_remove (h : Orderly σ) {sw : Sweep} {name : String} {rest : List String}
    {d : Disk} (stage : σ.sweeping = .copied sw name rest)
    (loses : σ.disk.Loses d (sw.path name)) :
    text { σ with disk := d, sweeping := .visiting sw rest } (segmentPath channel day number) =
      σ.text (segmentPath channel day number) := by
  obtain ⟨_, channel', day', number', _, _, path, _⟩ := h.copied stage
  have archive : archivePath (segmentPath channel day number) ≠ sw.path name := by
    rw [path]
    exact archivePath_ne_segmentPath _ _ _ _ _ _
  have copied : σ.sweeping.copied? = some (sw.path name) := by
    rw [stage]
    rfl
  by_cases own : segmentPath channel day number = sw.path name
  · rw [text, text, Disk.archiveText_congr (loses.contentAt?_other archive), own,
      if_pos copied, if_neg (Sweeping.Stage.copied?_ne rfl _),
      Disk.plainText_of_none loses.contentAt?_self]
  · refine text_loses loses own archive ⟨fun same => ?_, fun same => by cases same⟩
    rw [copied] at same
    exact absurd (Option.some.inj same).symm own

/-- What can be read of a segment of a day within the retention window changes by what is written
to it in its place. -/
theorem Orderly.text_step (h : Orderly σ) (step : Step σ deed σ') (twoDigit : day.TwoDigit)
    (retained : ∀ sw, σ.sweeping.sweep? = some sw → sw.channel = channel →
      sw.today.ordinal - day.ordinal ≤ sw.policy.retentionDays) :
    σ'.text (segmentPath channel day number) =
      σ.text (segmentPath channel day number) ++
        (written? (segmentPath channel day number) (σ, deed)).getD "" := by
  cases step with
  | take _ aims =>
    refine text_unwritten rfl ?_
    cases aims with
    | stays grows | opens _ grows =>
      simp only [text, grows.archiveText_eq h.tidy.sound, grows.plainText_eq h.tidy.sound]
  | write stage => exact h.text_write stage _ _ _ _ rfl
  | publish | forget =>
    exact text_unwritten rfl (text_congr rfl rfl _)
  | look resting =>
    refine text_unwritten rfl (text_congr ?_ ?_ _)
    · rfl
    · rw [resting]
      rfl
  | @pass _ stage before after _ deeds =>
    have same : text { σ with sweeping := stage } (segmentPath channel day number) =
        σ.text (segmentPath channel day number) :=
      text_congr (by rfl) (after.trans before.symm) _
    rcases deeds with rfl | rfl <;> exact text_unwritten rfl same
  | @delete sw name rest d stage deletes loses =>
    have acts := Sweep.acts_of_delete deletes
    have under : σ.sweeping.sweep? = some sw := by rw [stage]; rfl
    have free : σ.sweeping.copied? = none := by rw [stage]; rfl
    refine text_unwritten rfl (text_loses loses (fun same => ?_) (fun same => ?_)
      (by rw [free]; exact .rfl))
    · obtain ⟨own, _, asked⟩ := sw.verdict_segment twoDigit same.symm acts
      have := LogPolicy.sweeping_eq_delete_iff.mp (asked.trans deletes)
      have := retained sw under own
      omega
    · obtain ⟨own, asked⟩ := sw.verdict_archive twoDigit same.symm acts
      have := LogPolicy.sweeping_eq_delete_iff.mp (asked.trans deletes)
      have := retained sw under own
      omega
  | copy stage _ _ same _ grows made =>
    have free : σ.sweeping.copied? = none := by rw [stage]; rfl
    exact text_unwritten rfl (h.text_copy free same grows made)
  | remove stage loses => exact text_unwritten rfl (h.text_remove stage loses)

/-- Of a day that stays within the retention window, a segment and its archive hold what was
written to the segment in its place, and nothing else. -/
theorem Runs.text_eq (runs : Runs { writer := { policies } } history σ) (twoDigit : day.TwoDigit)
    (retained : Retained history channel day) :
    σ.text (segmentPath channel day number) =
      String.join (history.filterMap (written? (segmentPath channel day number))) := by
  induction runs with
  | start => rfl
  | @deed history σ σ' deed runs done ih =>
    have before : Retained history channel day := fun step member =>
      retained step (List.mem_append_left _ member)
    rw [runs.orderly.text_step (runs.orderly.step_of_after done) twoDigit, ih before,
      List.filterMap_append, String.join_append]
    · congr 1
      cases wrote : written? (segmentPath channel day number) (σ, deed) <;> simp [wrote]
    · rintro sw stage rfl
      obtain ⟨step, member, look, _⟩ := runs.looked stage
      refine before step member (sw.policy, sw.today) ?_
      rw [look, begins?, if_pos rfl]
      rfl

end Texts

/-! ## What is kept -/

theorem Runs.readable (runs : Runs { writer := { policies } } history σ) {τ : Workplace}
    {record : Record} {line : String} (member : (τ, Deed.write none) ∈ history)
    (stage : τ.appending = .published record line s) (inPlace : τ.InPlace s)
    (retained : Retained history record.channel record.time.date) :
    ∃ number front back,
      σ.disk.archiveText (segmentPath record.channel record.time.date number) ++
        σ.disk.plainText (segmentPath record.channel record.time.date number) =
      front ++ line ++ back := by
  obtain ⟨_, _, reached, _⟩ := runs.of_mem member
  have aimed : aim? τ.appending = some (record, line, s) := by rw [stage]; rfl
  obtain ⟨there, day, _⟩ := reached.orderly.aimed aimed
  have path := (reached.orderly.held there).path
  rw [day] at path
  have writes : written? s.path (τ, .write none) = some line := by
    simp only [written?, stage, true_and, if_pos inPlace, piece]
  have found : line ∈ history.filterMap (written? s.path) :=
    List.mem_filterMap.mpr ⟨_, member, writes⟩
  obtain ⟨before, after, split⟩ := List.append_of_mem found
  have text : σ.text s.path = String.join before ++ line ++ String.join after := by
    rw [path, runs.text_eq (Instant.date_twoDigit record.time) retained, ← path, split,
      String.join_append, String.join_cons, String.append_assoc]
  refine ⟨s.number, String.join before, ?_⟩
  rw [← path]
  unfold Workplace.text at text
  split at text
  next =>
    refine ⟨String.join after ++ σ.disk.plainText s.path, ?_⟩
    rw [String.append_empty] at text
    rw [text, String.append_assoc]
  next => exact ⟨String.join after, text⟩

/-- Retention deletes or compresses a segment that the writer has open only if it overlooks it.  A
line of a day within the retention window is readable from the day's segments and archives if its
segment was in its place when it was written, and else the segment was overlooked.  Only a segment
of an earlier day is overlooked, which was not open, or not published yet, when the sweep looked. -/
theorem kept_unless_overlooked (runs : Runs { writer := { policies } } history σ) :
    (∀ step ∈ history, ∀ channel s, step.1.writer.segments.get? channel = some s →
      step.1.touched? step.2 = some s.path → step.1.Overlooks channel s) ∧
    (∀ τ record line s, (τ, Deed.write none) ∈ history →
      τ.appending = .published record line s →
      Retained history record.channel record.time.date →
        (τ.InPlace s ∧ ∃ number front back,
          σ.disk.archiveText (segmentPath record.channel record.time.date number) ++
            σ.disk.plainText (segmentPath record.channel record.time.date number) =
          front ++ record.line (τ.writer.policy record.channel).level ++ back) ∨
        (¬ τ.InPlace s ∧ Overlooked history record.channel s)) ∧
    (∀ step ∈ history, ∀ channel s, step.1.Overlooks channel s →
      ∃ look ∈ history, ∃ policy today, look.2 = .look channel policy today ∧
        s.day.ordinal < today.ordinal ∧
        (IsBetween channel look.1.appending ∨
          ∀ t ∈ look.1.writer.segments.get? channel, t.path ≠ s.path)) := by
  refine ⟨fun ⟨τ, deed⟩ member channel s there touched => ?_,
    fun τ record line s member stage retained => ?_, fun ⟨τ, deed⟩ member channel s overlooks => ?_⟩
  · obtain ⟨_, _, reached, _⟩ := runs.of_mem member
    exact reached.orderly.overlooks_of_touched there touched
  · obtain ⟨earlier, _, reached, inside, _⟩ := runs.of_mem member
    have aimed : aim? τ.appending = some (record, line, s) := by rw [stage]; rfl
    obtain ⟨there, _, rfl⟩ := reached.orderly.aimed aimed
    by_cases inPlace : τ.InPlace s
    · exact .inl ⟨inPlace, runs.readable member stage inPlace retained⟩
    · refine .inr ⟨inPlace, ?_⟩
      rcases (reached.minded record.channel s there).resolve_left inPlace with
        overlooks | ⟨step, before, overlooks⟩
      · exact ⟨_, member, overlooks⟩
      · exact ⟨step, inside before, overlooks⟩
  · obtain ⟨earlier, _, reached, inside, _⟩ := runs.of_mem member
    obtain ⟨look, before, late⟩ := reached.late_of_overlooks overlooks
    exact ⟨look, inside before, late⟩

/-! ## A day that ends, and a record that comes late -/

def appends (record : Record) : List Deed := [.take record none, .publish, .write none]

def connectAt (time : Instant) : Record := { channel := 1, time, purpose := .connect }

/-- A record of each of two days.  Then a sweep compresses the segment of the first. -/
def turnOfDay : List Deed :=
  appends (connectAt 0) ++ appends (connectAt Instant.microsPerDay) ++
    [.look 1 {} ⟨1970, 1, 2⟩, .list, .visit, .remove, .visit, .visit]

/-- The record of the first day comes after the sweep has looked, and the next one of that day after
the sweep. -/
def lateRecord : List Deed :=
  appends (connectAt Instant.microsPerDay) ++ [.look 1 {} ⟨1970, 1, 2⟩] ++
    appends (connectAt 0) ++ [.list, .visit, .visit, .remove, .visit] ++
    appends (connectAt 1000000)

theorem turn_of_day_kept :
    ∃ history σ, Runs { writer := {} } history σ ∧ Retained history 1 ⟨1970, 1, 1⟩ ∧
      (∀ step ∈ history, ∀ s ∈ step.1.writer.segments.get? 1,
        ¬ step.1.Overlooks 1 s ∧ step.1.touched? step.2 ≠ some s.path) ∧
      ∃ number front back,
        σ.disk.archiveText (segmentPath 1 ⟨1970, 1, 1⟩ number) ++
          σ.disk.plainText (segmentPath 1 ⟨1970, 1, 1⟩ number) =
        front ++ (connectAt 0).line .info ++ back := by
  have facts : ∃ run ∈ run? { writer := {} } turnOfDay, Retained run.1 1 ⟨1970, 1, 1⟩ ∧
      (∀ step ∈ run.1, ∀ s ∈ step.1.writer.segments.get? 1, ¬ step.1.Overlooks 1 s) ∧
      ∃ step ∈ run.1, ∃ s ∈ step.1.writer.segments.get? 1, step.2 = .write none ∧
        step.1.appending = .published (connectAt 0) ((connectAt 0).line .info) s ∧
        step.1.writer.policy 1 = {} ∧ ¬ ∃ step ∈ run.1, step.1.Overlooks 1 s := by
    decide +kernel
  obtain ⟨⟨history, σ⟩, ran, retained, minded, ⟨τ, _⟩, member, s, _, rfl, stage, policy, known⟩ :=
    facts
  have runs := runs_of_run? ran
  obtain ⟨touched, readable, _⟩ := kept_unless_overlooked runs
  refine ⟨history, σ, runs, retained, fun step inside s there => ?_, ?_⟩
  · refine ⟨minded step inside s there, fun same => ?_⟩
    exact minded step inside s there (touched step inside 1 s there same)
  · have day : (connectAt 0).time.date = ⟨1970, 1, 1⟩ := by decide +kernel
    have level : (τ.writer.policy (connectAt 0).channel).level = .info := congrArg _ policy
    rw [← day] at retained ⊢
    rcases readable τ (connectAt 0) _ s member stage retained with ⟨_, found⟩ | ⟨_, overlooked⟩
    · rw [level] at found
      exact found
    · exact absurd overlooked known

/-- The sweep compressed the segment of the first day while it was open, and the last line, which
was written to it after that, is nowhere on the disk. -/
theorem late_record_lost :
    ∃ run ∈ run? { writer := {} } lateRecord, Retained run.1 1 ⟨1970, 1, 1⟩ ∧
      (∃ step ∈ run.1, ∃ s ∈ step.1.writer.segments.get? 1,
        step.1.touched? step.2 = some s.path) ∧
      (∃ step ∈ run.1, ∃ s ∈ step.1.writer.segments.get? 1, step.2 = .write none ∧
        step.1.appending =
          .published (connectAt 1000000) ((connectAt 1000000).line .info) s) ∧
      run.2.disk.items.entries.map (fun entry => (entry.1, run.2.disk.contentAt? entry.1)) =
        [(channelFolder 1, none),
          (segmentPath 1 ⟨1970, 1, 2⟩ 0,
            some [.text ((connectAt Instant.microsPerDay).line .info)]),
          (archivePath (segmentPath 1 ⟨1970, 1, 1⟩ 0),
            some [.packed ((connectAt 0).line .info)])] := by
  decide +kernel

end Workplace

end Fieldbus.Log
