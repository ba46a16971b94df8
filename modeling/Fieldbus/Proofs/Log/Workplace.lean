import Fieldbus.Log.Retention
import Fieldbus.Log.Writer

/-!
# A writer and a sweep at work

The writer and the sweeps share the disk and the table of published paths, and each takes its steps
without regard to the other.  An append finds its segment, publishes the path and writes the line,
and drops the segment if it fails.  A sweep looks up the published path of its channel, lists the
folder, and goes over the names.  It deletes a file in one step and compresses it in two: the file
is copied into its archive, and removed later.

`Workplace.after` is one such step, a deed, made of the functions that the writer and the sweeps
are made of.  Deeds of one party alone are the whole of `Writer.handle` (`runs_handle`) and of
`sweep` (`runs_sweep`).  The disk fails an append wherever it may, and a sweep only where its tree
makes it fail.
-/

namespace Fieldbus.Log

/-! ## States -/

/-- Where an append stands. -/
inductive Appending where
  | idle
  /-- The segment for the line is open. -/
  | aimed (record : Record) (line : String) (s : Segment.Open)
  /-- Its path is published. -/
  | published (record : Record) (line : String) (s : Segment.Open)
  /-- The append has failed, and the segment of the channel is not dropped yet. -/
  | failed (record : Record)
deriving DecidableEq

/-- What a sweep goes by. -/
structure Sweep where
  channel : UInt16
  policy : LogPolicy
  today : Date
  /-- The path that was published for the channel when the sweep looked. -/
  active : Option Path

namespace Sweep

def path (sw : Sweep) (name : String) : Path := channelFolder sw.channel ++ [name]

def verdict (sw : Sweep) (name : String) : Sweeping :=
  sweepingOf sw.channel sw.policy sw.today sw.active (sw.path name) name

end Sweep

/-- Where a sweep stands. -/
inductive Sweeping.Stage where
  | resting
  | looked (sw : Sweep)
  /-- These names are left. -/
  | visiting (sw : Sweep) (names : List String)
  /-- A segment is in its archive, and has to be removed before the names that are left. -/
  | copied (sw : Sweep) (name : String) (rest : List String)

/-- The sweep that is under way. -/
def Sweeping.Stage.sweep? : Sweeping.Stage → Option Sweep
  | .resting => none
  | .looked sw | .visiting sw _ | .copied sw _ _ => some sw

/-- The path that is copied and not removed. -/
def Sweeping.Stage.copied? : Sweeping.Stage → Option Path
  | .copied sw name _ => some (sw.path name)
  | _ => none

theorem Sweeping.Stage.copied?_ne {stage : Sweeping.Stage} (free : stage.copied? = none)
    (path : Path) : stage.copied? ≠ some path := by
  rw [free]
  exact (Option.some_ne_none path).symm

structure Workplace where
  writer : Writer
  disk : Disk := {}
  appending : Appending := .idle
  sweeping : Sweeping.Stage := .resting

/-! ## Deeds -/

/-- A step of the writer or of a sweep. -/
inductive Deed where
  /-- The writer takes a record and finds the segment for its line. -/
  | take (record : Record) (trouble : Option Trouble)
  | publish
  /-- The writer writes the line, or fails after a number of its characters. -/
  | write (cut : Option Nat)
  | forget
  /-- A sweep of a channel begins. -/
  | look (channel : UInt16) (policy : LogPolicy) (today : Date)
  | list
  /-- The sweep goes to the next name. -/
  | visit
  | remove
deriving DecidableEq

namespace Workplace

/-- The workplace after a deed, if it is time for it. -/
def after (σ : Workplace) : Deed → Option Workplace
  | .take record trouble =>
    match σ.appending with
    | .idle =>
      let line := record.line (σ.writer.policy record.channel).level
      match σ.writer.target σ.disk record.channel record.time.date line.utf8ByteSize trouble with
      | (writer, disk, some s) => some { σ with writer, disk, appending := .aimed record line s }
      | (writer, disk, none) => some { σ with writer, disk, appending := .failed record }
    | _ => none
  | .publish =>
    match σ.appending with
    | .aimed record line s =>
      some { σ with
        writer := σ.writer.publish record.channel s
        appending := .published record line s }
    | _ => none
  | .write cut =>
    match σ.appending with
    | .published record line s =>
      match σ.writer.writeLine σ.disk record.channel s line (cut.map .writing) with
      | (writer, disk, true) => some { σ with writer, disk, appending := .idle }
      | (writer, disk, false) => some { σ with writer, disk, appending := .failed record }
    | _ => none
  | .forget =>
    match σ.appending with
    | .failed record =>
      some { σ with writer := σ.writer.forget record.channel, appending := .idle }
    | _ => none
  | .look channel policy today =>
    match σ.sweeping with
    | .resting =>
      some { σ with sweeping := .looked ⟨channel, policy, today, σ.writer.active.get? channel⟩ }
    | _ => none
  | .list =>
    match σ.sweeping with
    | .looked sw =>
      let folder := channelFolder sw.channel
      match σ.disk.item? folder with
      | some .folder => some { σ with sweeping := .visiting sw (σ.disk.namesIn folder) }
      | _ => some { σ with sweeping := .resting }
    | _ => none
  | .visit =>
    match σ.sweeping with
    | .visiting _ [] => some { σ with sweeping := .resting }
    | .visiting sw (name :: rest) =>
      match sw.verdict name with
      | .keep => some { σ with sweeping := .visiting sw rest }
      | .delete =>
        match σ.disk.removeFile? (sw.path name) with
        | some disk => some { σ with disk, sweeping := .visiting sw rest }
        | none => some { σ with sweeping := .resting }
      | .compress =>
        match pack σ.disk (sw.path name) with
        | (disk, true) => some { σ with disk, sweeping := .copied sw name rest }
        | (disk, false) => some { σ with disk, sweeping := .resting }
    | _ => none
  | .remove =>
    match σ.sweeping with
    | .copied sw name rest =>
      match σ.disk.removeFile? (sw.path name) with
      | some disk => some { σ with disk, sweeping := .visiting sw rest }
      | none => some { σ with sweeping := .resting }
    | _ => none

/-- Does deeds in order.  What is done is kept, each deed with the workplace before it. -/
def run? (σ : Workplace) : List Deed → Option (List (Workplace × Deed) × Workplace)
  | [] => some ([], σ)
  | deed :: rest => do
    let σ' ← σ.after deed
    let (history, last) ← σ'.run? rest
    some ((σ, deed) :: history, last)

/-- Deeds one after another, with the history that they make. -/
inductive Runs (ρ : Workplace) : List (Workplace × Deed) → Workplace → Prop
  /-- No deed. -/
  | start : Runs ρ [] ρ
  /-- One deed more. -/
  | deed {history : List (Workplace × Deed)} {σ σ' : Workplace} {deed : Deed} :
    Runs ρ history σ → σ.after deed = some σ' → Runs ρ (history ++ [(σ, deed)]) σ'

variable {ρ σ σ' : Workplace} {history more : List (Workplace × Deed)} {deed : Deed}

theorem Runs.trans (first : Runs ρ history σ) (second : Runs σ more σ') :
    Runs ρ (history ++ more) σ' := by
  induction second with
  | start => rwa [List.append_nil]
  | deed _ done ih =>
    rw [← List.append_assoc]
    exact ih.deed done

theorem Runs.cons (deed : Deed) (done : ρ.after deed = some σ) (rest : Runs σ history σ') :
    Runs ρ ((ρ, deed) :: history) σ' :=
  (Runs.start.deed done).trans rest

theorem runs_of_run? {deeds : List Deed} (ran : ρ.run? deeds = some (history, σ)) :
    Runs ρ history σ := by
  induction deeds generalizing ρ history with
  | nil =>
    cases ran
    exact .start
  | cons deed rest ih =>
    obtain ⟨next, done, ran⟩ := Option.bind_eq_some_iff.mp ran
    obtain ⟨⟨history', last⟩, ran, same⟩ := Option.bind_eq_some_iff.mp ran
    cases same
    exact .cons deed done (ih ran)

/-- A deed of a history was done in a workplace that was reached before. -/
theorem Runs.of_mem {τ : Workplace} (runs : Runs ρ history σ) (member : (τ, deed) ∈ history) :
    ∃ earlier next, Runs ρ earlier τ ∧ earlier ⊆ history ∧ τ.after deed = some next := by
  induction runs with
  | start => cases member
  | @deed history τ' σ' other runs done ih =>
    rcases List.mem_append.mp member with before | last
    · obtain ⟨earlier, next, reached, inside, done⟩ := ih before
      exact ⟨earlier, next, reached, fun _ found => List.mem_append_left _ (inside found), done⟩
    · cases List.mem_singleton.mp last
      exact ⟨history, σ', runs, fun _ found => List.mem_append_left _ found, done⟩

/-! ## An append without a break -/

/-- Where the line is cut. -/
def cut? : Option Trouble → Option Nat
  | some (.writing written) => some written
  | _ => none

theorem writeLine_cut? (w : Writer) (d : Disk) (channel : UInt16) (s : Segment.Open) (line : String)
    (trouble : Option Trouble) :
    w.writeLine d channel s line ((cut? trouble).map .writing) =
      w.writeLine d channel s line trouble := by
  rcases trouble with _ | trouble
  · rfl
  · cases trouble <;> rfl

/-- The deeds of one append are what the writer does with a record. -/
theorem runs_handle (idle : σ.appending = .idle) (record : Record) (trouble : Option Trouble) :
    ∃ history, Runs σ history
      { σ with
        writer := (σ.writer.handle σ.disk record trouble).1
        disk := (σ.writer.handle σ.disk record trouble).2 } := by
  obtain ⟨w, d, appending, sweeping⟩ := σ
  cases idle
  show ∃ history, Runs ⟨w, d, .idle, sweeping⟩ history
    ⟨(w.handle d record trouble).1, (w.handle d record trouble).2, .idle, sweeping⟩
  let line := record.line (w.policy record.channel).level
  cases found : w.target d record.channel record.time.date line.utf8ByteSize trouble with
  | mk w₁ rest =>
    obtain ⟨d₁, segment⟩ := rest
    cases segment with
    | none =>
      have handles : w.handle d record trouble = (w₁.forget record.channel, d₁) := by
        simp only [Writer.handle, Writer.append, found, line]
      have takes : Workplace.after ⟨w, d, .idle, sweeping⟩ (.take record trouble) =
          some ⟨w₁, d₁, .failed record, sweeping⟩ := by
        simp only [after, found, line]
      rw [handles]
      exact ⟨_, .cons _ takes (.cons .forget rfl .start)⟩
    | some s =>
      have takes : Workplace.after ⟨w, d, .idle, sweeping⟩ (.take record trouble) =
          some ⟨w₁, d₁, .aimed record line s, sweeping⟩ := by
        simp only [after, found, line]
      cases wrote : (w₁.publish record.channel s).writeLine d₁ record.channel s line trouble with
      | mk w₂ rest =>
        obtain ⟨d₂, ok⟩ := rest
        have writes := (writeLine_cut? _ d₁ record.channel s line trouble).trans wrote
        cases ok with
        | true =>
          have handles : w.handle d record trouble = (w₂, d₂) := by
            simp only [Writer.handle, Writer.append, found, line, wrote]
          rw [handles]
          refine ⟨_, .cons _ takes (.cons .publish rfl (.cons (.write (cut? trouble)) ?_ .start))⟩
          simp only [after, writes]
        | false =>
          have handles : w.handle d record trouble = (w₂.forget record.channel, d₂) := by
            simp only [Writer.handle, Writer.append, found, line, wrote]
          have fails : Workplace.after
              ⟨w₁.publish record.channel s, d₁, .published record line s, sweeping⟩
              (.write (cut? trouble)) = some ⟨w₂, d₂, .failed record, sweeping⟩ := by
            simp only [after, writes]
          rw [handles]
          exact ⟨_, .cons _ takes (.cons .publish rfl (.cons _ fails (.cons .forget rfl .start)))⟩

/-! ## A sweep without a break -/

/-- A segment is compressed by two deeds. -/
theorem runs_compress (w : Writer) (d : Disk) (appending : Appending) {sw : Sweep} {name : String}
    (asked : sw.verdict name = .compress) (rest : List String) :
    ∃ history, Runs ⟨w, d, appending, .visiting sw (name :: rest)⟩ history
      ⟨w, (compress d (sw.path name)).1, appending,
        if (compress d (sw.path name)).2 then .visiting sw rest else .resting⟩ := by
  cases packed : pack d (sw.path name) with
  | mk disk ok =>
    cases ok with
    | false =>
      have stops : Workplace.after ⟨w, d, appending, .visiting sw (name :: rest)⟩ .visit =
          some ⟨w, disk, appending, .resting⟩ := by
        simp only [after, asked, packed]
      simp only [compress, packed, Bool.false_eq_true, if_false]
      exact ⟨_, .cons _ stops .start⟩
    | true =>
      have copies : Workplace.after ⟨w, d, appending, .visiting sw (name :: rest)⟩ .visit =
          some ⟨w, disk, appending, .copied sw name rest⟩ := by
        simp only [after, asked, packed]
      cases removed : disk.removeFile? (sw.path name) with
      | none =>
        have stops : Workplace.after ⟨w, disk, appending, .copied sw name rest⟩ .remove =
            some ⟨w, disk, appending, .resting⟩ := by
          simp only [after, removed]
        simp only [compress, packed, removed, reduceCtorEq, Bool.false_eq_true, if_false]
        exact ⟨_, .cons _ copies (.cons _ stops .start)⟩
      | some disk' =>
        have removes : Workplace.after ⟨w, disk, appending, .copied sw name rest⟩ .remove =
            some ⟨w, disk', appending, .visiting sw rest⟩ := by
          simp only [after, removed]
        simp only [compress, packed, removed, reduceCtorEq, if_false, if_true]
        exact ⟨_, .cons _ copies (.cons _ removes .start)⟩

theorem runs_sweepNames (w : Writer) (d : Disk) (appending : Appending) (sw : Sweep)
    (report : SweepReport) (names : List String) :
    ∃ history, Runs ⟨w, d, appending, .visiting sw names⟩ history
      ⟨w, (sweepNames sw.channel sw.policy sw.today sw.active (channelFolder sw.channel) d report
        names).1, appending, .resting⟩ := by
  induction names generalizing d report with
  | nil => exact ⟨_, .cons .visit rfl .start⟩
  | cons name rest ih =>
    cases asked : sweepingOf sw.channel sw.policy sw.today sw.active
        (channelFolder sw.channel ++ [name]) name with
    | keep =>
      obtain ⟨history, runs⟩ := ih d report
      have passes : Workplace.after ⟨w, d, appending, .visiting sw (name :: rest)⟩ .visit =
          some ⟨w, d, appending, .visiting sw rest⟩ := by
        simp only [after, Sweep.verdict, Sweep.path, asked]
      simp only [sweepNames, asked]
      exact ⟨_, .cons _ passes runs⟩
    | delete =>
      cases removed : d.removeFile? (channelFolder sw.channel ++ [name]) with
      | none =>
        have stops : Workplace.after ⟨w, d, appending, .visiting sw (name :: rest)⟩ .visit =
            some ⟨w, d, appending, .resting⟩ := by
          simp only [after, Sweep.verdict, Sweep.path, asked, removed]
        simp only [sweepNames, asked, removed]
        exact ⟨_, .cons _ stops .start⟩
      | some disk =>
        obtain ⟨history, runs⟩ := ih disk { report with deleted := report.deleted + 1 }
        have deletes : Workplace.after ⟨w, d, appending, .visiting sw (name :: rest)⟩ .visit =
            some ⟨w, disk, appending, .visiting sw rest⟩ := by
          simp only [after, Sweep.verdict, Sweep.path, asked, removed]
        simp only [sweepNames, asked, removed]
        exact ⟨_, .cons _ deletes runs⟩
    | compress =>
      obtain ⟨history, moves⟩ := runs_compress w d appending asked rest
      cases compressed : compress d (channelFolder sw.channel ++ [name]) with
      | mk disk ok =>
        rw [Sweep.path, compressed] at moves
        cases ok with
        | false =>
          simp only [sweepNames, asked, compressed]
          exact ⟨history, moves⟩
        | true =>
          obtain ⟨more, runs⟩ := ih disk { report with compressed := report.compressed + 1 }
          simp only [sweepNames, asked, compressed]
          exact ⟨history ++ more, moves.trans runs⟩

/-- The deeds of one sweep are what a sweep of a channel does. -/
theorem runs_sweep (resting : σ.sweeping = .resting) (channel : UInt16) (policy : LogPolicy)
    (today : Date) :
    ∃ history, Runs σ history
      { σ with
        disk := (sweep σ.disk channel policy today (σ.writer.active.get? channel)).1 } := by
  obtain ⟨w, d, appending, sweeping⟩ := σ
  cases resting
  show ∃ history, Runs ⟨w, d, appending, .resting⟩ history
    ⟨w, (sweep d channel policy today (w.active.get? channel)).1, appending, .resting⟩
  cases item : d.item? (channelFolder channel) with
  | none =>
    have sweeps : sweep d channel policy today (w.active.get? channel) = (d, some {}) := by
      simp only [sweep, item]
    rw [sweeps]
    refine ⟨_, .cons (.look channel policy today) rfl (.cons .list ?_ .start)⟩
    simp only [after, item]
  | some found =>
    cases found with
    | file n =>
      have sweeps : sweep d channel policy today (w.active.get? channel) = (d, none) := by
        simp only [sweep, item]
      rw [sweeps]
      refine ⟨_, .cons (.look channel policy today) rfl (.cons .list ?_ .start)⟩
      simp only [after, item]
    | folder =>
      have sweeps : sweep d channel policy today (w.active.get? channel) =
          sweepNames channel policy today (w.active.get? channel) (channelFolder channel) d {}
            (d.namesIn (channelFolder channel)) := by
        simp only [sweep, item]
      rw [sweeps]
      obtain ⟨history, runs⟩ := runs_sweepNames w d appending
        ⟨channel, policy, today, w.active.get? channel⟩ {} (d.namesIn (channelFolder channel))
      refine ⟨_, .cons (.look channel policy today) rfl (.cons .list ?_ runs)⟩
      simp only [after, item]

end Workplace

end Fieldbus.Log
