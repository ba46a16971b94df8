import Fieldbus.Proofs.Log.Segments

/-!
# The log loses nothing

The writer keeps a segment open for each channel, and that segment is the last one of its day
(`Segment.Open.IsLast`).  It is found again by its number, after a day in between and after the
writer is made anew.  Appending a record puts its line into the segment of its channel and day
that takes it, and changes no other (`append_takes`).

`run_filed` puts the steps together: whatever the order of channels and days, and wherever the
writer is made anew, no line is lost and the lines of a day stay in order.  Segments are counted
without a bound.
-/

namespace Fieldbus.Log

open Writer (segmentPath openNumber openNewest overflows)

/-! ## Open segments -/

/-- A segment is open on the disk, and its day has no later one. -/
structure Segment.Open.IsLast (s : Segment.Open) (d : Disk) (channel : UInt16) : Prop where
  path : s.path = segmentPath channel s.day s.number
  file : d.item? s.path = some (.file s.file)
  size : (d.files s.path).map Content.size = some s.size
  last : d.files (segmentPath channel s.day (s.number + 1)) = none

/-- A segment stays the last one while other channels are written. -/
theorem Segment.Open.IsLast.other {s : Segment.Open} {d d' : Disk} {channel other : UInt16}
    {day : Date} {number : Nat} {more : Content} (h : s.IsLast d other) (foreign : other ≠ channel)
    (keeps : d.Keeps d')
    (files : d'.files = d.files.extend (segmentPath channel day number) more) :
    s.IsLast d' other := by
  have same (n : Nat) : d'.files (segmentPath other s.day n) =
      d.files (segmentPath other s.day n) := by
    rw [files]
    exact Files.extend_other _ (Writer.segmentPath_ne foreign s.day day n number) more
  refine ⟨h.path, keeps _ _ h.file, ?_, ?_⟩
  · rw [h.path, same, ← h.path, h.size]
  · rw [same, h.last]

/-- A disk and the open segment of a day after something was put behind that segment.  In a new one
that is all there is, and opening puts nothing there. -/
structure Extended (d : Disk) (channel : UInt16) (day : Date) (more : Content) (d' : Disk)
    (s : Segment.Open) : Prop where
  sound : d'.Sound
  keeps : d.Keeps d'
  isLast : s.IsLast d' channel
  day : s.day = day
  files : d'.files = d.files.extend s.path more

theorem Extended.path {d d' : Disk} {channel : UInt16} {day : Date} {more : Content}
    {s : Segment.Open} (h : Extended d channel day more d' s) :
    s.path = segmentPath channel day s.number := by
  rw [h.isLast.path, h.day]

/-- An opened segment has the size of the content that was there. -/
theorem Extended.size {d d' : Disk} {channel : UInt16} {day : Date} {s : Segment.Open}
    (h : Extended d channel day [] d' s) :
    s.size = Content.size ((d.files s.path).getD []) := by
  have size := h.isLast.size
  rw [h.files, Files.extend_self, List.append_nil] at size
  exact (Option.some.inj size).symm

/-- The last segment of a day can be opened, and the one after it. -/
theorem openNumber_extends {d : Disk} (sound : d.Sound) {channel : UInt16} {day : Date}
    (folder : d.item? (channelFolder channel) = some .folder) (h : day.TwoDigit) {number : Nat}
    (last : d.files (segmentPath channel day (number + 1)) = none) :
    ∃ d' s, openNumber d channel day number = some (d', s) ∧ Extended d channel day [] d' s ∧
      s.number = number := by
  obtain ⟨d', file, made, sound', keeps, there, files⟩ :=
    sound.openAppend (segmentPath_length channel day number) folder
  refine ⟨d', ⟨day, number, segmentPath channel day number, file, (d'.content file).size⟩,
    by simp only [openNumber, made, Option.map_some], ⟨sound', keeps, ⟨rfl, there, ?_, ?_⟩, rfl,
    files⟩, rfl⟩
  · rw [Disk.files_file there]
    rfl
  · rw [files, Files.extend_other _ (segmentPath_succ_ne channel h number), last]

/-! ## Finding the segment for a line -/

namespace Writer

/-- The first part of finding the segment for a line: the one of its day that is open, or else the
newest one. -/
def find (w : Writer) (disk : Disk) (channel : UInt16) (day : Date) (trouble : Option Trouble) :
    Writer × Disk × Option Segment.Open :=
  match (w.segments.get? channel).filter fun s => s.day = day with
  | some s => (w, disk, some s)
  | none =>
    match openNewest disk channel day trouble with
    | (disk, some s) => ({ w with segments := w.segments.insert channel s }, disk, some s)
    | (disk, none) => (w, disk, none)

/-- The second part: the next segment, if the line does not fit. -/
def rotate (w : Writer) (disk : Disk) (channel : UInt16) (day : Date) (size : Nat)
    (trouble : Option Trouble) (s : Segment.Open) : Writer × Disk × Option Segment.Open :=
  if overflows (w.policy channel) s size then
    if trouble = some .rotating then (w, disk, none)
    else
      match openNumber disk channel day (s.number + 1) with
      | some (disk, s) => ({ w with segments := w.segments.insert channel s }, disk, some s)
      | none => (w, disk, none)
  else (w, disk, some s)

theorem target_eq (w : Writer) (disk : Disk) (channel : UInt16) (day : Date) (size : Nat)
    (trouble : Option Trouble) :
    w.target disk channel day size trouble =
      match w.find disk channel day trouble with
      | (w, disk, none) => (w, disk, none)
      | (w, disk, some s) => w.rotate disk channel day size trouble s := by
  unfold target find
  cases (w.segments.get? channel).filter fun s => s.day = day with
  | some s => rfl
  | none =>
    obtain ⟨disk, opened⟩ := openNewest disk channel day trouble
    cases opened <;> rfl

end Writer

/-- Something was put behind the open segment of a day, and the writer has changed for its channel
only. -/
structure Written (w : Writer) (d : Disk) (channel : UInt16) (day : Date) (more : Content)
    (w' : Writer) (d' : Disk) (s : Segment.Open) : Prop where
  extended : Extended d channel day more d' s
  policies : w'.policies = w.policies
  others : ∀ other, other ≠ channel → w'.segments.get? other = w.segments.get? other

theorem Written.insert {w w' : Writer} {d d' : Disk} {channel : UInt16} {day : Date}
    {more : Content} {s : Segment.Open} (extended : Extended d channel day more d' s)
    (policies : w'.policies = w.policies)
    (others : ∀ other, other ≠ channel → w'.segments.get? other = w.segments.get? other) :
    Written w d channel day more { w' with segments := w'.segments.insert channel s } d' s where
  extended := extended
  policies := policies
  others other foreign := by
    rw [Table.get?_insert, if_neg (Ne.symm foreign), others other foreign]

/-- A line that is written to an open segment stands behind what it had. -/
theorem Extended.write {d d' : Disk} {channel : UInt16} {day : Date} {s : Segment.Open}
    (h : Extended d channel day [] d' s) (twoDigit : day.TwoDigit) (line : String) :
    Extended d channel day [.text line] (d'.append s.file (.text line))
      { s with size := s.size + line.utf8ByteSize } := by
  obtain ⟨sound, files⟩ := h.sound.append h.isLast.file (.text line)
  obtain ⟨content, shown, size⟩ := Option.map_eq_some_iff.mp h.isLast.size
  refine ⟨sound, h.keeps, ⟨h.isLast.path, h.isLast.file, ?_, ?_⟩, h.day, ?_⟩
  · rw [files, Files.extend_self, shown, ← size, Option.map_some, Option.getD_some,
      Content.size_append_text]
  · have apart : segmentPath channel s.day (s.number + 1) ≠ s.path := by
      rw [h.isLast.path, h.day]
      exact segmentPath_succ_ne channel twoDigit s.number
    rw [files, Files.extend_other _ apart, h.isLast.last]
  · rw [files, h.files, Files.extend_extend, List.nil_append]

/-! ## Appending a record -/

section Appending

variable {w : Writer} {d : Disk} {channel : UInt16} {day : Date} {segments : List (List String)}

/-- The open segment of a day is the last one that is there. -/
theorem Filed.number_eq {s : Segment.Open} (filed : Filed d channel day segments)
    (isLast : s.IsLast d channel) (own : s.day = day) : s.number + 1 = segments.length := by
  have there := filed.isSome s.number
  have beyond := filed.isSome (s.number + 1)
  rw [← own, isLast.last] at beyond
  rw [← own, ← isLast.path] at there
  have some : (d.files s.path).isSome = true := by
    rw [← Option.isSome_map, isLast.size]
    rfl
  rw [some] at there
  have inside := of_decide_eq_true there.symm
  have outside := of_decide_eq_false beyond.symm
  omega

variable (sound : d.Sound) (open_last : ∀ s, w.segments.get? channel = some s → s.IsLast d channel)
  (twoDigit : day.TwoDigit) (filed : Filed d channel day segments)
include sound open_last twoDigit filed

theorem find_opens_last :
    ∃ w' d' s, w.find d channel day none = (w', d', some s) ∧ Written w d channel day [] w' d' s ∧
      s.number = segments.length - 1 := by
  unfold Writer.find
  cases kept : (w.segments.get? channel).filter fun s => s.day = day with
  | some s =>
    obtain ⟨there, own⟩ := Option.filter_eq_some_iff.mp kept
    have isLast := open_last s there
    have own : s.day = day := of_decide_eq_true own
    obtain ⟨content, shown, _⟩ := Option.map_eq_some_iff.mp isLast.size
    have files := (Files.extend_nil shown).symm
    refine ⟨w, d, s, rfl, ⟨⟨sound, .refl d, isLast, own, files⟩, rfl, fun _ _ => rfl⟩, ?_⟩
    have := filed.number_eq isLast own
    omega
  | none =>
    obtain ⟨d₁, made, sound₁, keeps₁, folder, files₁⟩ := sound.makeFolder (toString channel.toNat)
    have filed₁ : Filed d₁ channel day segments := fun number => by rw [files₁, filed number]
    have beyond : d₁.files (segmentPath channel day (segments.length - 1 + 1)) = none := by
      rw [filed₁, List.getElem?_eq_none (by omega), Option.map_none]
    obtain ⟨d', s, opens, extended, number⟩ :=
      openNumber_extends sound₁ folder twoDigit beyond
    have folders : d.makeFolders (channelFolder channel) = (d₁, true) := made
    have found : openNewest d channel day none = (d', some s) := by
      simp [openNewest, folders, newest_eq sound₁ twoDigit filed₁, opens]
    rw [found]
    refine ⟨_, d', s, rfl, Written.insert ⟨extended.sound, keeps₁.trans extended.keeps,
      extended.isLast, extended.day, ?_⟩ rfl fun _ _ => rfl, number⟩
    rw [extended.files, files₁]

omit sound open_last in
/-- Behind the last segment of a day a next one can be opened. -/
theorem openNumber_succ_extends {d₁ : Disk} {s : Segment.Open} (found : Extended d channel day [] d₁ s)
    (number : s.number + 1 = segments.length) :
    ∃ d' s', openNumber d₁ channel day (s.number + 1) = some (d', s') ∧
      Extended d channel day [] d' s' ∧ s'.number = s.number + 1 := by
  have there : d.files s.path = some (Content.ofLines segments[s.number]) := by
    rw [found.path, filed, List.getElem?_eq_getElem (by omega), Option.map_some]
  have files : d₁.files = d.files := by rw [found.files, Files.extend_nil there]
  have folder := found.sound.parent found.isLast.file
  rw [found.path, segmentPath_dropLast] at folder
  have beyond : d₁.files (segmentPath channel day (s.number + 1 + 1)) = none := by
    rw [files, filed, List.getElem?_eq_none (by omega), Option.map_none]
  obtain ⟨d', s', opens, extended, number'⟩ :=
    openNumber_extends found.sound folder twoDigit beyond
  refine ⟨d', s', opens, ⟨extended.sound, found.keeps.trans extended.keeps, extended.isLast,
    extended.day, ?_⟩, number'⟩
  rw [extended.files, files]

omit sound open_last in
/-- A line goes to the segment that takes it. -/
theorem rotate_takes {w₁ : Writer} {d₁ : Disk} {s : Segment.Open}
    (found : Written w d channel day [] w₁ d₁ s) (number : s.number = segments.length - 1)
    (filled : ∀ segment ∈ segments, 0 < linesSize segment) (size : Nat) :
    ∃ w' d' s', w₁.rotate d₁ channel day size none s = (w', d', some s') ∧
      Written w d channel day [] w' d' s' ∧
      Takes (w.policy channel).maxSegmentBytes size segments s'.number := by
  have policy : w₁.policy channel = w.policy channel := by
    unfold Writer.policy
    rw [found.policies]
  have sized := found.extended.size
  rw [found.extended.path, filed] at sized
  unfold Writer.rotate
  rw [policy]
  rcases segments.eq_nil_or_concat' with rfl | ⟨front, last, rfl⟩
  · -- A new segment is empty and takes any line.
    have empty : s.size = 0 := sized
    have stays : overflows (w.policy channel) s size = false := by simp [overflows, empty]
    refine ⟨w₁, d₁, s, by simp [stays], found, ?_⟩
    rw [number]
    exact .first
  · have number : s.number = front.length := by simpa using number
    have own : s.size = linesSize last := by
      rw [sized, number]
      simp [linesSize]
    have more : 0 < linesSize last := filled last (by simp)
    by_cases full : (w.policy channel).maxSegmentBytes < linesSize last + size
    · have overflow : overflows (w.policy channel) s size = true := by
        simp [overflows, more, own, full]
      obtain ⟨d', s', opens, extended, number'⟩ :=
        openNumber_succ_extends twoDigit filed found.extended (by simp [number])
      refine ⟨_, d', s', by simp [overflow, opens],
        Written.insert extended found.policies found.others, ?_⟩
      rw [number', number]
      exact .next full
    · have stays : overflows (w.policy channel) s size = false := by
        simp [overflows, own, Nat.not_lt.mp full]
      refine ⟨w₁, d₁, s, by simp [stays], found, ?_⟩
      rw [number]
      exact .last (Nat.not_lt.mp full)

end Appending

/-- Appending a record succeeds.  Its line goes to the segment of its channel and day that takes
it. -/
theorem append_takes {w : Writer} {d : Disk} (record : Record) {segments : List (List String)}
    (sound : d.Sound)
    (open_last : ∀ s, w.segments.get? record.channel = some s → s.IsLast d record.channel)
    (filed : Filed d record.channel record.time.date segments)
    (filled : ∀ segment ∈ segments, 0 < linesSize segment) :
    let policy := w.policy record.channel
    let line := record.line policy.level
    ∃ w' d' s, w.append d record = (w', d', true) ∧
      Written w d record.channel record.time.date [.text line] w' d' s ∧
      w'.segments.get? record.channel = some s ∧
      Takes policy.maxSegmentBytes line.utf8ByteSize segments s.number := by
  intro policy line
  have twoDigit := Instant.date_twoDigit record.time
  obtain ⟨w₁, d₁, s₁, finds, found, number⟩ := find_opens_last sound open_last twoDigit filed
  obtain ⟨w₂, d₂, s, rotates, opened, takes⟩ :=
    rotate_takes twoDigit filed found number filled line.utf8ByteSize
  have target : w.target d record.channel record.time.date line.utf8ByteSize none =
      (w₂, d₂, some s) := by
    rw [Writer.target_eq, finds]
    exact rotates
  have appends : w.append d record =
      (w₂.publish record.channel s).writeLine d₂ record.channel s line none := by
    unfold Writer.append
    simp only [target, line, policy]
  refine ⟨_, _, _, appends, Written.insert (opened.extended.write twoDigit line) opened.policies
    opened.others, ?_, takes⟩
  rw [Table.get?_insert, if_pos rfl]

/-! ## Histories -/

/-- What is done with a log. -/
inductive Call where
  | append (record : Record)
  /-- The writer is dropped and made anew on the same disk. -/
  | reopen

namespace Call

/-- Makes calls in order.  The last component says whether every append succeeded. -/
def run (w : Writer) (disk : Disk) : List Call → Writer × Disk × Bool
  | [] => (w, disk, true)
  | .append record :: rest =>
    let (w, disk, written) := w.append disk record
    let (w, disk, others) := run w disk rest
    (w, disk, written && others)
  | .reopen :: rest => run w.reopen disk rest

/-- The line of a record of a channel and a day. -/
def line? (policy : LogPolicy) (channel : UInt16) (day : Date) : Call → Option String
  | .append record =>
    if record.channel = channel ∧ record.time.date = day then some (record.line policy.level)
    else none
  | .reopen => none

/-- The lines of the records of a channel and a day, in order. -/
def lines (policy : LogPolicy) (channel : UInt16) (day : Date) (calls : List Call) :
    List String :=
  calls.filterMap (line? policy channel day)

theorem lines_concat (policy : LogPolicy) (channel : UInt16) (day : Date) (calls : List Call)
    (call : Call) :
    lines policy channel day (calls ++ [call]) =
      lines policy channel day calls ++ (call.line? policy channel day).toList := by
  unfold lines
  rw [List.filterMap_append]
  cases shown : call.line? policy channel day <;> simp [shown]

end Call

theorem Record.line_pos (record : Record) (level : LogLevel) :
    0 < (record.line level).utf8ByteSize := by
  unfold Record.line
  rw [String.utf8ByteSize_append]
  exact Nat.lt_of_lt_of_le (by decide) (Nat.le_add_left _ _)

theorem Call.lines_pos {policy : LogPolicy} {channel : UInt16} {day : Date} {calls : List Call} :
    ∀ line ∈ lines policy channel day calls, 0 < line.utf8ByteSize := by
  intro line member
  obtain ⟨call, _, shown⟩ := List.mem_filterMap.mp member
  cases call with
  | append record =>
    rw [← Option.some.inj (Option.ite_none_right_eq_some.mp shown).2]
    exact record.line_pos _
  | reopen => cases shown

/-- What is on the disk after some calls, and what the writer knows of it. -/
structure Kept (policy : UInt16 → LogPolicy) (calls : List Call) (w : Writer) (d : Disk) :
    Prop where
  sound : d.Sound
  fixed : w.policy = policy
  open_last : ∀ channel s, w.segments.get? channel = some s → s.IsLast d channel
  filed : ∀ channel day, day.TwoDigit → ∃ segments,
    Segmented (policy channel).maxSegmentBytes (Call.lines (policy channel) channel day calls)
      segments ∧
    Filed d channel day segments

namespace Kept

variable {policy : UInt16 → LogPolicy} {calls : List Call} {w : Writer} {d : Disk}

theorem start (policies : Table UInt16 LogPolicy) :
    Kept ({ policies } : Writer).policy [] { policies } {} where
  sound := Disk.empty_sound
  fixed := rfl
  open_last _ _ h := by cases h
  filed _ _ _ := ⟨[], .empty, fun _ => Disk.files_none rfl⟩

theorem reopen (h : Kept policy calls w d) : Kept policy (calls ++ [.reopen]) w.reopen d where
  sound := h.sound
  fixed := h.fixed
  open_last _ _ there := by cases there
  filed channel day twoDigit := by
    obtain ⟨segments, segmented, filed⟩ := h.filed channel day twoDigit
    refine ⟨segments, ?_, filed⟩
    rwa [Call.lines_concat, Call.line?, Option.toList_none, List.append_nil]

/-- A record is appended to the segments of its channel and day, and to no others. -/
theorem append (h : Kept policy calls w d) (record : Record) :
    ∃ w' d', w.append d record = (w', d', true) ∧
      Kept policy (calls ++ [.append record]) w' d' := by
  have own := Instant.date_twoDigit record.time
  obtain ⟨segments, segmented, filed⟩ := h.filed record.channel record.time.date own
  obtain ⟨w', d', s, appends, written, kept, takes⟩ := append_takes record h.sound
    (h.open_last record.channel) filed (segmented.linesSize_pos Call.lines_pos)
  have files := written.extended.files
  rw [written.extended.path] at files
  rw [h.fixed] at takes files
  have same : w'.policy = policy := by
    rw [← h.fixed]
    unfold Writer.policy
    rw [written.policies]
  refine ⟨w', d', appends, written.extended.sound, same, fun other t there => ?_,
    fun channel day twoDigit => ?_⟩
  · by_cases foreign : other = record.channel
    · subst foreign
      rw [kept] at there
      cases there
      exact written.extended.isLast
    · rw [written.others other foreign] at there
      exact (h.open_last other t there).other foreign written.extended.keeps files
  · by_cases meant : record.channel = channel ∧ record.time.date = day
    · obtain ⟨rfl, rfl⟩ := meant
      obtain ⟨segments', segmented', filed'⟩ := takes.fills segmented own filed files
      refine ⟨segments', ?_, filed'⟩
      rwa [Call.lines_concat, Call.line?, if_pos ⟨rfl, rfl⟩]
    · obtain ⟨segments, segmented, filed⟩ := h.filed channel day twoDigit
      refine ⟨segments, ?_, fun number => ?_⟩
      · rwa [Call.lines_concat, Call.line?, if_neg meant, Option.toList_none, List.append_nil]
      · rw [files, Files.extend_other, filed]
        intro paths
        obtain ⟨days, channels, _⟩ := Writer.segmentPath_inj twoDigit own paths
        exact meant ⟨channels.symm, days.symm⟩

/-- Every append of a run succeeds. -/
theorem run (h : Kept policy calls w d) (more : List Call) :
    ∃ w' d', Call.run w d more = (w', d', true) ∧ Kept policy (calls ++ more) w' d' := by
  induction more generalizing calls w d with
  | nil => exact ⟨w, d, rfl, by rwa [List.append_nil]⟩
  | cons call rest ih =>
    rw [List.append_cons]
    cases call with
    | append record =>
      obtain ⟨w₁, d₁, appends, h₁⟩ := h.append record
      obtain ⟨w', d', runs, h'⟩ := ih h₁
      refine ⟨w', d', ?_, h'⟩
      simp [Call.run, appends, runs]
    | reopen => exact ih h.reopen

end Kept

/-- From an empty disk on, every record is appended, and the segments of a channel's day hold its
lines in order: they are numbered from zero without a gap, and each is no longer than the ceiling
or is a single line.  A segment ends only where the next line does not fit. -/
theorem run_filed (policies : Table UInt16 LogPolicy) (calls : List Call) (channel : UInt16)
    (day : Date) (valid : day.isValid = true) :
    let policy := ({ policies } : Writer).policy channel
    ∃ w d, Call.run { policies } {} calls = (w, d, true) ∧
      ∃ segments : List (List String),
        Segmented policy.maxSegmentBytes (Call.lines policy channel day calls) segments ∧
        segments.flatten = Call.lines policy channel day calls ∧
        (∀ segment ∈ segments, linesSize segment ≤ policy.maxSegmentBytes ∨
          ∃ line, segment = [line]) ∧
        ∀ number,
          d.exists? (segmentPath channel day number) = decide (number < segments.length) ∧
          d.contentAt? (segmentPath channel day number) =
            segments[number]?.map Content.ofLines := by
  intro policy
  obtain ⟨w, d, runs, kept⟩ := (Kept.start policies).run calls
  obtain ⟨segments, segmented, filed⟩ := kept.filed channel day (Date.twoDigit_of_isValid valid)
  refine ⟨w, d, runs, segments, segmented, segmented.flatten_eq, segmented.bounded,
    fun number => ⟨?_, filed number⟩⟩
  rw [kept.sound.exists?_eq (segmentPath_length ..), filed.isSome]

/-- Two days in turn, and a new writer before the last record. -/
def turns : List Call :=
  let connect (time : Instant) : Call := .append { channel := 7, time, purpose := .connect }
  [connect 0, connect Instant.microsPerDay, connect 1000, .reopen, connect 2000]

/-- Below this ceiling a segment has room for one line. -/
def oneLine : Table UInt16 LogPolicy := ⟨[(7, { maxSegmentBytes := 100 })]⟩

theorem turns_run_filed :
    Date.isValid ⟨1970, 1, 1⟩ = true ∧
      ∃ w d, Call.run { policies := oneLine } {} turns = (w, d, true) ∧
        ∃ segments : List (List String),
          Segmented 100 (Call.lines { maxSegmentBytes := 100 } 7 ⟨1970, 1, 1⟩ turns) segments ∧
          segments.flatten = Call.lines { maxSegmentBytes := 100 } 7 ⟨1970, 1, 1⟩ turns ∧
          (∀ segment ∈ segments, linesSize segment ≤ 100 ∨ ∃ line, segment = [line]) ∧
          ∀ number,
            d.exists? (segmentPath 7 ⟨1970, 1, 1⟩ number) = decide (number < segments.length) ∧
            d.contentAt? (segmentPath 7 ⟨1970, 1, 1⟩ number) =
              segments[number]?.map Content.ofLines :=
  ⟨by decide, run_filed oneLine turns 7 ⟨1970, 1, 1⟩ (by decide)⟩

-- Each of the three records of the day has a segment.
example : (List.range 4).map (fun number => (Call.run { policies := oneLine } {} turns).2.1.exists?
    (segmentPath 7 ⟨1970, 1, 1⟩ number)) = [true, true, true, false] := by
  decide +kernel

end Fieldbus.Log
