import Mathlib.Data.List.Induction
import Fieldbus.Proofs.Log.Archives
import Fieldbus.Proofs.Log.Regular

/-!
# Lines behind fragments

The writer goes on when the disk fails it.  A write that fails leaves a part of its line in the
segment, a fragment, and the next line of that segment is put right behind it.

`Writer.filings` is what a run puts into segments, whole lines and fragments, in order.  `Tracked`
is what holds on the way: every path has the text that it had and what was filed there, the segments
of a day are filled in the order of their numbers, and the writer knows the sizes of the segments
that it has open.  A line that was written whole starts a line of its own just where nothing without
a newline is in front of it (`runWith_leaves`).

The disk is any tree of folders and files to begin with, so folders may stand in the way.
-/

namespace Fieldbus.Log

open Writer (segmentPath openNumber openNewest newest newestFrom)

/-! ## Disks that gain -/

namespace Disk

variable {d d' d'' : Disk} {path other : Path} {file : Nat}

/-- A disk with more folders and more empty files. -/
structure Gains (d d' : Disk) : Prop where
  regular : d'.Regular
  items : ∀ {path item}, d.item? path = some item → d'.item? path = some item
  contents : ∀ n, d'.content n = d.content n
  text : ∀ path, d'.plainText path = d.plainText path

theorem Regular.gains_refl (regular : d.Regular) : d.Gains d :=
  ⟨regular, id, fun _ => rfl, fun _ => rfl⟩

theorem Gains.trans (h : d.Gains d') (h' : d'.Gains d'') : d.Gains d'' where
  regular := h'.regular
  items there := h'.items (h.items there)
  contents n := (h'.contents n).trans (h.contents n)
  text path := (h'.text path).trans (h.text path)

theorem Gains.exists? (h : d.Gains d') (there : d.exists? path = true) :
    d'.exists? path = true := by
  obtain ⟨item, found⟩ := Option.isSome_iff_exists.mp there
  rw [Disk.exists?, h.items found]
  rfl

/-- A folder or an empty file is put where nothing is. -/
theorem Regular.withItem_gains (regular : d.Regular) (absent : d.item? path = none)
    (above : d.item? path.dropLast = some .folder) {item : Item} {next : Nat}
    (numbered : item = .folder ∧ next = d.next ∨ item = .file d.next ∧ next = d.next + 1) :
    d.Gains (d.withItem path item next) where
  regular := regular.withItem absent above numbered
  items := item?_withItem_kept absent
  contents _ := rfl
  text other := by
    by_cases own : other = path
    · subst own
      have before : d.plainText other = "" := by
        rw [plainText, contentAt?_of_not_file fun n there => by cases absent.symm.trans there]
        rfl
      have made : (d.withItem other item next).item? other = some item := item?_withItem_self absent
      rw [before, plainText]
      rcases numbered with ⟨rfl, -⟩ | ⟨rfl, -⟩
      · rw [contentAt?_of_not_file fun n there => by cases made.symm.trans there]
        rfl
      · have blank : (d.withItem other (.file d.next) next).content d.next = [] :=
          regular.blank (Nat.le_refl _)
        rw [contentAt?_of_file made, blank]
        rfl
    · refine plainText_congr (files_congr ?_ fun _ _ => rfl)
      rw [item?_withItem absent, if_neg own]

theorem Regular.makeFolders_gains (regular : d.Regular) (names : Path) :
    d.Gains (d.makeFolders names).1 := by
  have parts {above : Path} (there : d.item? above = some .folder) :
      d.Gains (d.makeFoldersFrom above names).1 := by
    induction names generalizing d above with
    | nil => exact regular.gains_refl
    | cons name rest ih =>
      unfold Disk.makeFoldersFrom
      dsimp only
      split
      next found => exact ih regular found
      next => exact regular.gains_refl
      next absent =>
        have up : d.item? (above ++ [name]).dropLast = some .folder := by
          rwa [List.dropLast_concat]
        have made := regular.withItem_gains absent up (.inl ⟨rfl, rfl⟩)
        exact made.trans (ih made.regular (item?_withItem_self absent))
  exact parts rfl

theorem Regular.openAppend_gains (regular : d.Regular)
    (opened : d.openAppend? path = some (d', file)) :
    d.Gains d' ∧ d'.item? path = some (.file file) := by
  have there := (regular.openAppend opened).2.1
  refine ⟨?_, there⟩
  unfold openAppend? at opened
  split at opened
  next n found =>
    cases opened
    exact regular.gains_refl
  next => cases opened
  next absent =>
    split at opened
    next above =>
      cases opened
      exact regular.withItem_gains absent above (.inr ⟨rfl, rfl⟩)
    next => cases opened

/-- What is written into a file is read at its path only. -/
theorem Regular.plainText_append (regular : d.Regular) (there : d.item? path = some (.file file))
    (text : String) (other : Path) :
    (d.append file (.text text)).plainText other =
      d.plainText other ++ if other = path then text else "" := by
  by_cases own : other = path
  · subst own
    rw [if_pos rfl]
    exact Disk.plainText_append there text
  · rw [if_neg own, String.append_empty]
    refine plainText_congr (contentAt?_append_of_ne (fun found => own ?_) _)
    exact regular.onePath found there

end Disk

/-! ## Segments in a row -/

/-- The segments of a day from number one to another number exist. -/
def Reached (d : Disk) (channel : UInt16) (day : Date) (number : Nat) : Prop :=
  ∀ k, 0 < k → k ≤ number → d.exists? (segmentPath channel day k) = true

section Reaching

variable {d d' : Disk} {channel : UInt16} {day : Date} {number : Nat}

theorem Reached.gains (h : Reached d channel day number) (gains : d.Gains d') :
    Reached d' channel day number :=
  fun k positive le => gains.exists? (h k positive le)

theorem newestFrom_reached (fuel start : Nat) :
    ∀ k, start < k → k ≤ newestFrom d channel day fuel start →
      d.exists? (segmentPath channel day k) = true := by
  induction fuel generalizing start with
  | zero =>
    intro k above le
    exact absurd (Nat.lt_of_lt_of_le above le) (Nat.lt_irrefl _)
  | succ fuel ih =>
    intro k above le
    unfold newestFrom at le
    split at le
    next found =>
      rcases Nat.lt_or_eq_of_le (Nat.succ_le_of_lt above) with further | rfl
      · exact ih (start + 1) k further le
      · exact found
    next => exact absurd (Nat.lt_of_lt_of_le above le) (Nat.lt_irrefl _)

theorem start_le_newestFrom (fuel start : Nat) : start ≤ newestFrom d channel day fuel start := by
  induction fuel generalizing start with
  | zero => exact Nat.le_refl _
  | succ fuel ih =>
    unfold newestFrom
    split
    · exact Nat.le_trans (Nat.le_succ _) (ih (start + 1))
    · exact Nat.le_refl _

theorem le_newestFrom {fuel start last : Nat} (enough : last ≤ start + fuel)
    (there : ∀ k, start < k → k ≤ last → d.exists? (segmentPath channel day k) = true) :
    last ≤ newestFrom d channel day fuel start := by
  induction fuel generalizing start with
  | zero => exact enough
  | succ fuel ih =>
    by_cases below : start + 1 ≤ last
    · unfold newestFrom
      rw [if_pos (there (start + 1) (Nat.lt_succ_self _) below)]
      exact ih (by omega) fun k above => there k (Nat.lt_of_succ_lt above)
    · exact Nat.le_trans (by omega) (start_le_newestFrom _ start)

/-- Segments that exist are items of their own, so there are no more of them than items. -/
theorem Reached.le_size (h : Reached d channel day number) (twoDigit : day.TwoDigit) :
    number ≤ d.items.size := by
  let paths := (List.range number).map fun k => segmentPath channel day (k + 1)
  have distinct : paths.Nodup := by
    refine List.Nodup.map (fun k k' same => ?_) List.nodup_range
    exact Nat.succ.inj (Writer.segmentPath_inj twoDigit twoDigit same).2.2
  have items : paths ⊆ d.items.keys := by
    intro path member
    obtain ⟨k, inside, rfl⟩ := List.mem_map.mp member
    exact Table.mem_keys_of_get? (h (k + 1) (Nat.succ_pos k) (List.mem_range.mp inside))
  calc number
      = paths.length := by simp [paths]
    _ ≤ d.items.keys.length := (List.subperm_of_subset distinct items).length_le
    _ = d.items.size := List.length_map ..

/-- The newest segment comes after all segments in a row. -/
theorem Reached.le_newest (h : Reached d channel day number) (twoDigit : day.TwoDigit) :
    number ≤ newest d channel day :=
  le_newestFrom (by have := h.le_size twoDigit; omega) fun k above le => h k above le

end Reaching

/-! ## Open segments -/

/-- A segment that is open under its path, with the size of its file. -/
structure Segment.Open.Stands (s : Segment.Open) (d : Disk) (channel : UInt16) : Prop where
  path : s.path = segmentPath channel s.day s.number
  file : d.item? s.path = some (.file s.file)
  size : s.size = (d.content s.file).size
  reached : Reached d channel s.day s.number

namespace Segment.Open.Stands

variable {s t : Segment.Open} {d d' : Disk} {channel other : UInt16}

theorem gains (h : s.Stands d channel) (gains : d.Gains d') : s.Stands d' channel where
  path := h.path
  file := gains.items h.file
  size := by rw [gains.contents, h.size]
  reached := h.reached.gains gains

/-- A segment has its size when another one is written. -/
theorem append (h : s.Stands d channel) (apart : s.file ≠ t.file) (piece : Piece) :
    s.Stands (d.append t.file piece) channel where
  path := h.path
  file := h.file
  size := by rw [Disk.content_append, if_neg apart, h.size]
  reached := h.reached

/-- A segment that is written has grown by what was written. -/
theorem write (h : s.Stands d channel) (text : String) :
    Stands { s with size := s.size + text.utf8ByteSize } (d.append s.file (.text text)) channel where
  path := h.path
  file := h.file
  size := by
    show s.size + text.utf8ByteSize = _
    rw [Disk.content_append, if_pos rfl, Content.size_append_text, h.size]
  reached := h.reached

/-- Segments of two channels are two files. -/
theorem file_ne (h : s.Stands d channel) (h' : t.Stands d other) (regular : d.Regular)
    (foreign : channel ≠ other) : s.file ≠ t.file := by
  intro same
  have found := h'.file
  rw [← same] at found
  have paths := regular.onePath h.file found
  rw [h.path, h'.path] at paths
  exact Writer.segmentPath_ne foreign _ _ _ _ paths

end Segment.Open.Stands

section Seeking

variable {w w' : Writer} {d d' : Disk} {channel : UInt16} {day : Date} {trouble : Option Trouble}
  {found : Option Segment.Open}

theorem openNumber_stands {number : Nat} {s : Segment.Open} (regular : d.Regular)
    (before : ∀ k, 0 < k → k < number → d.exists? (segmentPath channel day k) = true)
    (opened : openNumber d channel day number = some (d', s)) :
    d.Gains d' ∧ s.Stands d' channel ∧ s.day = day ∧ s.number = number := by
  obtain ⟨⟨grown, file⟩, appends, same⟩ := Option.map_eq_some_iff.mp opened
  cases same
  obtain ⟨gains, there⟩ := regular.openAppend_gains appends
  refine ⟨gains, ⟨rfl, there, rfl, fun k positive le => ?_⟩, rfl, rfl⟩
  rcases Nat.lt_or_eq_of_le le with below | rfl
  · exact gains.exists? (before k positive below)
  · rw [Disk.exists?, there]
    rfl

/-- A number that the open segment of a day has reached, or all segments in a row if none is open. -/
structure Floor (w : Writer) (d : Disk) (channel : UInt16) (day : Date) (number : Nat) : Prop where
  reached : Reached d channel day number
  opened : ∀ s, w.segments.get? channel = some s → s.day = day → number ≤ s.number

/-- What is known of a writer and its disk after it has looked for a segment. -/
structure Sought (w : Writer) (d : Disk) (channel : UInt16) (day : Date) (w' : Writer) (d' : Disk)
    (found : Option Segment.Open) : Prop where
  gains : d.Gains d'
  policies : w'.policies = w.policies
  others : ∀ other, other ≠ channel → w'.segments.get? other = w.segments.get? other
  stands : ∀ s, w'.segments.get? channel = some s → s.Stands d' channel
  /-- The search goes on in the last segment of the day, or behind it. -/
  later : ∀ s, w'.segments.get? channel = some s → s.day = day → ∀ number,
    Floor w d channel day number → number ≤ s.number
  own : ∀ s, w'.segments.get? channel = some s → w.segments.get? channel = some s ∨ s.day = day
  found : ∀ s ∈ found, w'.segments.get? channel = some s ∧ s.day = day

/-- Nothing was opened. -/
theorem Sought.stays (stands : ∀ s, w.segments.get? channel = some s → s.Stands d channel)
    (gains : d.Gains d')
    (held : ∀ s ∈ found, w.segments.get? channel = some s ∧ s.day = day) :
    Sought w d channel day w d' found where
  gains := gains
  policies := rfl
  others _ _ := rfl
  stands s there := (stands s there).gains gains
  later s there own _ floor := floor.opened s there own
  own _ there := .inl there
  found := held

/-- A segment of the day was opened. -/
theorem Sought.opens {s : Segment.Open} (gains : d.Gains d') (stands : s.Stands d' channel)
    (own : s.day = day) (later : ∀ number, Floor w d channel day number → number ≤ s.number)
    (policies : w'.policies = w.policies)
    (others : ∀ other, other ≠ channel → w'.segments.get? other = w.segments.get? other) :
    Sought w d channel day { w' with segments := w'.segments.insert channel s } d' (some s) := by
  have there {t : Segment.Open}
      (found : (w'.segments.insert channel s).get? channel = some t) : s = t := by
    rw [Table.get?_insert, if_pos rfl] at found
    exact Option.some.inj found
  refine ⟨gains, policies, fun other foreign => ?_, fun t found => ?_, fun t found _ => ?_,
    fun t found => ?_, fun t found => ?_⟩
  · rw [Table.get?_insert, if_neg (Ne.symm foreign), others other foreign]
  · cases there found
    exact stands
  · cases there found
    exact later
  · cases there found
    exact .inr own
  · cases found
    exact ⟨by rw [Table.get?_insert, if_pos rfl], own⟩

/-- The search has failed after all. -/
theorem Sought.fails (h : Sought w d channel day w' d' found) :
    Sought w d channel day w' d' none :=
  ⟨h.gains, h.policies, h.others, h.stands, h.later, h.own, nofun⟩

variable (regular : d.Regular) (twoDigit : day.TwoDigit)
  (stands : ∀ s, w.segments.get? channel = some s → s.Stands d channel)
include regular stands

include twoDigit in
theorem find_sought {w' : Writer} {d' : Disk} {found : Option Segment.Open}
    (done : w.find d channel day trouble = (w', d', found)) :
    Sought w d channel day w' d' found := by
  unfold Writer.find at done
  split at done
  next s kept =>
    cases done
    obtain ⟨there, own⟩ := Option.filter_eq_some_iff.mp kept
    refine .stays stands regular.gains_refl fun t same => ?_
    cases same
    exact ⟨there, of_decide_eq_true own⟩
  next =>
    have none_found : ∀ s ∈ (none : Option Segment.Open),
        w.segments.get? channel = some s ∧ s.day = day := nofun
    unfold openNewest at done
    by_cases failed : trouble = some .folder
    · rw [if_pos failed] at done
      cases done
      exact .stays stands regular.gains_refl none_found
    · rw [if_neg failed] at done
      have gains := regular.makeFolders_gains (channelFolder channel)
      generalize d.makeFolders (channelFolder channel) = made at done gains
      obtain ⟨d₁, ok⟩ := made
      dsimp only at done gains
      by_cases failed : (!ok || decide (trouble = some .opening)) = true
      · rw [if_pos failed] at done
        cases done
        exact .stays stands gains none_found
      · rw [if_neg failed] at done
        cases opened : openNumber d₁ channel day (newest d₁ channel day) with
        | none =>
          rw [opened] at done
          cases done
          exact .stays stands gains none_found
        | some opening =>
          obtain ⟨d₂, s⟩ := opening
          rw [opened] at done
          cases done
          obtain ⟨gains', stands', own, number⟩ := openNumber_stands gains.regular
            (fun k positive below => newestFrom_reached _ 0 k positive (Nat.le_of_lt below)) opened
          refine .opens (gains.trans gains') stands' own (fun number' floor => ?_) rfl fun _ _ => rfl
          rw [number]
          exact (floor.reached.gains gains).le_newest twoDigit

omit regular stands in
theorem rotate_sought {w₁ : Writer} {d₁ : Disk} {s : Segment.Open} {size : Nat}
    (sought : Sought w d channel day w₁ d₁ (some s))
    (done : w₁.rotate d₁ channel day size trouble s = (w', d', found)) :
    Sought w d channel day w' d' found := by
  obtain ⟨there, own⟩ := sought.found s rfl
  have here := sought.stands s there
  unfold Writer.rotate at done
  split at done
  next =>
    split at done
    next =>
      cases done
      exact sought.fails
    next =>
      cases opened : openNumber d₁ channel day (s.number + 1) with
      | none =>
        rw [opened] at done
        cases done
        exact sought.fails
      | some opening =>
        obtain ⟨d₂, t⟩ := opening
        rw [opened] at done
        cases done
        have reached : Reached d₁ channel day s.number := own ▸ here.reached
        obtain ⟨gains, stands', own', number⟩ := openNumber_stands sought.gains.regular
          (fun k positive below => reached k positive (Nat.le_of_lt_succ below)) opened
        refine .opens (sought.gains.trans gains) stands' own' (fun number' floor => ?_)
          sought.policies sought.others
        rw [number]
        exact Nat.le_succ_of_le (sought.later s there own number' floor)
  next =>
    cases done
    exact sought

include twoDigit in
/-- Looking for a segment, the writer opens the last one of the day or the one behind it. -/
theorem target_sought {size : Nat} {w' : Writer} {d' : Disk} {found : Option Segment.Open}
    (done : w.target d channel day size trouble = (w', d', found)) :
    Sought w d channel day w' d' found := by
  rw [Writer.target_eq] at done
  cases first : w.find d channel day trouble with
  | mk w₁ rest =>
    obtain ⟨d₁, one⟩ := rest
    have sought := find_sought regular twoDigit stands first
    rw [first] at done
    cases one with
    | none =>
      cases done
      exact sought
    | some s => exact rotate_sought sought done

end Seeking

/-! ## Lines of their own -/

/-- Nothing stands between the end of the text and the start of a line: the text is empty or ends
with a newline. -/
def IsEnded (text : String) : Prop := ∀ c ∈ text.toList.getLast?, c = '\n'

instance (text : String) : Decidable (IsEnded text) :=
  decidable_of_iff (text.toList.getLast?.all (· = '\n')) (by simp [IsEnded, Option.all_eq_true])

theorem isEnded_append {text : String} (more : text ≠ "") (front : String) :
    IsEnded (front ++ text) ↔ IsEnded text := by
  have some : text.toList ≠ [] := fun none => more (String.toList_eq_nil_iff.mp none)
  rw [IsEnded, IsEnded, String.toList_append, List.getLast?_append_of_ne_nil _ some]

/-- Of several texts the last one that is not empty decides. -/
theorem isEnded_join (first : String) (texts : List String) :
    IsEnded (first ++ String.join texts) ↔
      ∀ last ∈ ((first :: texts).filter (· ≠ "")).getLast?, IsEnded last := by
  induction texts using List.reverseRecOn with
  | nil =>
    by_cases blank : first = ""
    · simp [blank, IsEnded]
    · simp [blank]
  | append_singleton texts text ih =>
    rw [String.join_append, ← String.append_assoc, ← List.cons_append, List.filter_append]
    by_cases blank : text = ""
    · simpa [blank] using ih
    · simp [blank, isEnded_append]

theorem Record.isEnded_line (record : Record) (level : LogLevel) : IsEnded (record.line level) := by
  unfold Record.line
  rw [isEnded_append (by decide)]
  decide

/-! ## What is put where -/

/-- What a record has put into a segment of its channel and day. -/
structure Filing where
  record : Record
  /-- The number of the segment. -/
  number : Nat
  text : String
  /-- Whether that is the whole line. -/
  isWhole : Bool
deriving DecidableEq

namespace Filing

/-- What a line puts into the segment that was found for it. -/
def of (record : Record) (line : String) (trouble : Option Trouble) (s : Segment.Open) : Filing :=
  match trouble with
  | some (.writing written) => ⟨record, s.number, String.ofList (line.toList.take written), false⟩
  | _ => ⟨record, s.number, line, true⟩

def path (f : Filing) : Path := segmentPath f.record.channel f.record.time.date f.number

/-- The texts that are put into one file, in order. -/
def textsAt (path : Path) (filed : List Filing) : List String :=
  (filed.filter fun f => f.path = path).map text

theorem textsAt_append (path : Path) (filed more : List Filing) :
    textsAt path (filed ++ more) = textsAt path filed ++ textsAt path more := by
  rw [textsAt, textsAt, textsAt, List.filter_append, List.map_append]

theorem textsAt_singleton (path : Path) (f : Filing) :
    textsAt path [f] = if f.path = path then [f.text] else [] := by
  by_cases own : f.path = path <;> simp [textsAt, own]

/-- Of two filings of one channel and day, the later one is in the same segment or a later one. -/
def Follows (f g : Filing) : Prop :=
  f.record.channel = g.record.channel → f.record.time.date = g.record.time.date →
    f.number ≤ g.number

end Filing

namespace Writer

/-- What a record puts into a segment, if the writer finds one for it. -/
def filing? (w : Writer) (disk : Disk) (record : Record) (trouble : Option Trouble) :
    Option Filing :=
  let line := record.line (w.policy record.channel).level
  (w.target disk record.channel record.time.date line.utf8ByteSize trouble).2.2.map
    (Filing.of record line trouble)

/-- The segment has what was filed there, and the writer knows how much it has grown if that is the
whole line. -/
theorem writeLine_eq (w : Writer) (disk : Disk) (record : Record) (s : Segment.Open) (line : String)
    (trouble : Option Trouble) :
    let f := Filing.of record line trouble s
    let grown := { s with size := s.size + f.text.utf8ByteSize }
    w.writeLine disk record.channel s line trouble =
      (if f.isWhole then { w with segments := w.segments.insert record.channel grown } else w,
        disk.append s.file (.text f.text), f.isWhole) := by
  cases trouble with
  | none => rfl
  | some trouble => cases trouble <;> rfl

/-- What a run puts into segments, in order. -/
def filings (w : Writer) (disk : Disk) : List (Record × Option Trouble) → List Filing
  | [] => []
  | (record, trouble) :: rest =>
    let (w', disk') := w.handle disk record trouble
    (w.filing? disk record trouble).toList ++ w'.filings disk' rest

/-- The records of a run that are appended with success. -/
def appended (w : Writer) (disk : Disk) : List (Record × Option Trouble) → List Record
  | [] => []
  | (record, trouble) :: rest =>
    let (w', disk') := w.handle disk record trouble
    (if (w.append disk record trouble).2.2 then [record] else []) ++ w'.appended disk' rest

end Writer

/-- What a filing says of its record: the whole line, or a part of it. -/
def Filing.IsFrom (policy : UInt16 → LogPolicy) (f : Filing) : Prop :=
  let line := f.record.line (policy f.record.channel).level
  if f.isWhole then f.text = line else ∃ written, f.text = String.ofList (line.toList.take written)

theorem Filing.of_isFrom {policy : UInt16 → LogPolicy} (record : Record) (trouble : Option Trouble)
    (s : Segment.Open) :
    (Filing.of record (record.line (policy record.channel).level) trouble s).IsFrom policy := by
  cases trouble with
  | none => rfl
  | some trouble =>
    cases trouble with
    | writing written => exact ⟨written, rfl⟩
    | _ => rfl

/-- What is on the disk of a writer that started on another disk, and what the writer knows of it. -/
structure Tracked (old : Disk) (policy : UInt16 → LogPolicy) (filed : List Filing) (w : Writer)
    (d : Disk) : Prop where
  regular : d.Regular
  policies : w.policy = policy
  stands : ∀ channel s, w.segments.get? channel = some s → s.Stands d channel
  text : ∀ path, d.plainText path =
    old.plainText path ++ String.join (Filing.textsAt path filed)
  reached : ∀ f ∈ filed, Reached d f.record.channel f.record.time.date f.number
  /-- The open segment of a day is the last one that was filled. -/
  last : ∀ channel s, w.segments.get? channel = some s → ∀ f ∈ filed,
    f.record.channel = channel → f.record.time.date = s.day → f.number ≤ s.number
  ordered : filed.Pairwise Filing.Follows
  parts : ∀ f ∈ filed, f.IsFrom policy

namespace Tracked

variable {old d d' : Disk} {policy : UInt16 → LogPolicy} {filed : List Filing} {w w' : Writer}

theorem start (regular : d.Regular) (policies : Table UInt16 LogPolicy) :
    Tracked d ({ policies } : Writer).policy [] { policies } d where
  regular := regular
  policies := rfl
  stands _ _ there := by cases there
  text _ := String.append_empty.symm
  reached _ member := by cases member
  last _ _ there := by cases there
  ordered := .nil
  parts _ member := by cases member

/-- The writer may forget open segments. -/
theorem forgets (h : Tracked old policy filed w d) (policies : w'.policies = w.policies)
    (less : ∀ channel s, w'.segments.get? channel = some s → w.segments.get? channel = some s) :
    Tracked old policy filed w' d where
  regular := h.regular
  policies := by
    unfold Writer.policy
    rw [policies]
    exact h.policies
  stands channel s there := h.stands channel s (less channel s there)
  text := h.text
  reached := h.reached
  last channel s there := h.last channel s (less channel s there)
  ordered := h.ordered
  parts := h.parts

/-- Looking for a segment puts nothing anywhere, and the one that is found is the last one that was
filled or a later one. -/
theorem seeks (h : Tracked old policy filed w d) {channel : UInt16} {day : Date}
    {found : Option Segment.Open} (sought : Sought w d channel day w' d' found) :
    Tracked old policy filed w' d' where
  regular := sought.gains.regular
  policies := by
    unfold Writer.policy
    rw [sought.policies]
    exact h.policies
  stands other s there := by
    by_cases own : other = channel
    · subst own
      exact sought.stands s there
    · exact (h.stands other s (sought.others other own ▸ there)).gains sought.gains
  text path := (sought.gains.text path).trans (h.text path)
  reached f member := (h.reached f member).gains sought.gains
  last other s there f member channels days := by
    by_cases own : other = channel
    · subst own
      rcases sought.own s there with kept | day
      · exact h.last other s kept f member channels days
      · subst channels
        rw [day] at days
        subst days
        exact sought.later s there day f.number ⟨h.reached f member, fun t opened same =>
          h.last _ t opened f member rfl same.symm⟩
    · exact h.last other s (sought.others other own ▸ there) f member channels days
  ordered := h.ordered
  parts := h.parts

/-- A text is put behind the open segment of a record's channel and day. -/
theorem writes (h : Tracked old policy filed w d) {s : Segment.Open} {f : Filing}
    (opened : w.segments.get? f.record.channel = some s) (day : s.day = f.record.time.date)
    (number : f.number = s.number) (parts : f.IsFrom policy) :
    let grown := { s with size := s.size + f.text.utf8ByteSize }
    Tracked old policy (filed ++ [f])
      { w with segments := w.segments.insert f.record.channel grown }
      (d.append s.file (.text f.text)) := by
  intro grown
  have here := h.stands f.record.channel s opened
  have path : s.path = f.path := by rw [here.path, day, ← number, Filing.path]
  have latest {g : Filing} (member : g ∈ filed) (channels : g.record.channel = f.record.channel)
      (days : g.record.time.date = s.day) : g.number ≤ s.number :=
    h.last _ s opened g member channels days
  refine ⟨h.regular.append (h.regular.used here.file) _, h.policies, ?stands, ?text, ?reached,
    ?last, ?ordered, ?parts⟩
  case stands =>
    intro other t there
    rw [Table.get?_insert] at there
    split at there
    next own =>
      cases there
      exact own ▸ here.write f.text
    next foreign =>
      have apart := (h.stands other t there).file_ne here h.regular (Ne.symm foreign)
      exact (h.stands other t there).append apart _
  case text =>
    intro path'
    rw [h.regular.plainText_append here.file, h.text, Filing.textsAt_append,
      Filing.textsAt_singleton, String.join_append, String.append_assoc, path]
    by_cases own : path' = f.path
    · simp [own]
    · simp [own, Ne.symm own]
  case reached =>
    intro g member
    rcases List.mem_append.mp member with old | new
    · exact h.reached g old
    · obtain rfl := List.mem_singleton.mp new
      rw [number, ← day]
      exact here.reached
  case last =>
    intro other t there g member channels days
    rw [Table.get?_insert] at there
    split at there
    next own =>
      cases there
      rcases List.mem_append.mp member with old | new
      · exact latest old (channels.trans own.symm) days
      · obtain rfl := List.mem_singleton.mp new
        exact Nat.le_of_eq number
    next foreign =>
      rcases List.mem_append.mp member with old | new
      · exact h.last other t there g old channels days
      · obtain rfl := List.mem_singleton.mp new
        exact absurd channels foreign
  case ordered =>
    refine List.pairwise_append.mpr ⟨h.ordered, List.pairwise_singleton .., fun g member g' own => ?_⟩
    obtain rfl := List.mem_singleton.mp own
    intro channels days
    rw [number]
    exact latest member channels (days.trans day.symm)
  case parts =>
    intro g member
    rcases List.mem_append.mp member with old | new
    · exact h.parts g old
    · exact List.mem_singleton.mp new ▸ parts

/-- One record: what it puts into a segment is filed behind the rest. -/
theorem step (h : Tracked old policy filed w d) (record : Record) (trouble : Option Trouble) :
    Tracked old policy (filed ++ (w.filing? d record trouble).toList)
      (w.handle d record trouble).1 (w.handle d record trouble).2 := by
  unfold Writer.filing? Writer.handle Writer.append
  dsimp only
  rw [h.policies]
  generalize lined : record.line (policy record.channel).level = line
  cases target : w.target d record.channel record.time.date line.utf8ByteSize trouble with
  | mk w₁ rest =>
    obtain ⟨d₁, found⟩ := rest
    have sought := target_sought h.regular (Instant.date_twoDigit record.time)
      (h.stands record.channel) target
    have sees := h.seeks sought
    cases found with
    | none =>
      rw [Option.map_none, Option.toList_none, List.append_nil]
      refine sees.forgets rfl fun channel s there => ?_
      exact (Option.ite_none_left_eq_some.mp (Table.get?_erase w₁.segments .. ▸ there)).2
    | some s =>
      obtain ⟨opened, day⟩ := sought.found s rfl
      have parts : (Filing.of record line trouble s).IsFrom policy := by
        rw [← lined]
        exact Filing.of_isFrom record trouble s
      rw [Option.map_some, Option.toList_some]
      dsimp only
      rw [Writer.writeLine_eq]
      generalize made : Filing.of record line trouble s = f at parts
      have own : f.record = record ∧ f.number = s.number := by
        rw [← made]
        unfold Filing.of
        split <;> exact ⟨rfl, rfl⟩
      obtain ⟨rfl, number⟩ := own
      have wrote := sees.writes opened day number parts
      cases f.isWhole with
      | true => exact wrote.forgets rfl fun _ _ there => there
      | false =>
        refine wrote.forgets rfl fun channel t there => ?_
        obtain ⟨foreign, kept⟩ :=
          Option.ite_none_left_eq_some.mp (Table.get?_erase w₁.segments .. ▸ there)
        rw [Table.get?_insert, if_neg (Ne.symm foreign)]
        exact kept

/-- A run files what its records put into segments. -/
theorem run (h : Tracked old policy filed w d) (records : List (Record × Option Trouble)) :
    Tracked old policy (filed ++ w.filings d records) (w.runWith d records).1
      (w.runWith d records).2 := by
  induction records generalizing filed w d with
  | nil => exact (List.append_nil filed).symm ▸ h
  | cons entry rest ih =>
    obtain ⟨record, trouble⟩ := entry
    have done := ih (h.step record trouble)
    rw [List.append_assoc] at done
    exact done

end Tracked

/-- An append succeeds just when it files a whole line. -/
theorem Writer.append_succeeds_iff (w : Writer) (d : Disk) (record : Record)
    (trouble : Option Trouble) :
    (w.append d record trouble).2.2 = (w.filing? d record trouble).any Filing.isWhole := by
  unfold Writer.filing? Writer.append
  dsimp only
  generalize w.target d record.channel record.time.date
    (record.line (w.policy record.channel).level).utf8ByteSize trouble = target
  obtain ⟨w₁, d₁, found⟩ := target
  cases found with
  | none => rfl
  | some s =>
    dsimp only
    rw [Writer.writeLine_eq, Option.map_some, Option.any_some]

theorem Writer.filing?_record (w : Writer) (d : Disk) (record : Record) (trouble : Option Trouble) :
    ∀ f ∈ w.filing? d record trouble, f.record = record := by
  intro f filed
  obtain ⟨s, -, rfl⟩ := Option.map_eq_some_iff.mp filed
  unfold Filing.of
  split <;> rfl

/-- The whole lines of a run are those of the records that are appended with success, in order. -/
theorem Writer.filings_whole (w : Writer) (d : Disk) (records : List (Record × Option Trouble)) :
    ((w.filings d records).filter Filing.isWhole).map Filing.record = w.appended d records := by
  induction records generalizing w d with
  | nil => rfl
  | cons entry rest ih =>
    obtain ⟨record, trouble⟩ := entry
    show ((_ ++ _ : List Filing).filter _).map _ = _ ++ _
    rw [List.filter_append, List.map_append, ih, Writer.append_succeeds_iff]
    have named := w.filing?_record d record trouble
    cases filed : w.filing? d record trouble with
    | none => rfl
    | some f =>
      obtain rfl := named f filed
      cases whole : f.isWhole <;> simp [whole]

/-- A whole line as it is found after a run, with the texts that were filed before it and after it. -/
structure Line (d d' : Disk) (policy : UInt16 → LogPolicy) (f : Filing)
    (earlier later : List Filing) : Prop where
  there : d'.plainText f.path =
    d.plainText f.path ++ String.join (Filing.textsAt f.path earlier) ++
      f.record.line (policy f.record.channel).level ++
      String.join (Filing.textsAt f.path later)
  ends : IsEnded (f.record.line (policy f.record.channel).level)
  /-- It starts a line of its own just where the last thing that stands in front of it ends one. -/
  starts : IsEnded (d.plainText f.path ++ String.join (Filing.textsAt f.path earlier)) ↔
    ∀ last ∈ ((d.plainText f.path :: Filing.textsAt f.path earlier).filter (· ≠ "")).getLast?,
      IsEnded last

/-- What a run of records leaves on a disk. -/
structure Leaves (w : Writer) (d : Disk) (records : List (Record × Option Trouble)) : Prop where
  /-- The whole lines are those of the records that are appended with success, in order. -/
  appended : ((w.filings d records).filter Filing.isWhole).map Filing.record =
    w.appended d records
  /-- The segments of a channel and a day are filled one after the other. -/
  ordered : (w.filings d records).Pairwise Filing.Follows
  /-- All else that is filed is a part of the line of a record that failed. -/
  parts : ∀ f ∈ w.filings d records, f.IsFrom w.policy
  /-- What is filed is put behind what is there, and nothing is taken away. -/
  text : ∀ path, (w.runWith d records).2.plainText path =
    d.plainText path ++ String.join (Filing.textsAt path (w.filings d records))
  line : ∀ earlier f later, w.filings d records = earlier ++ f :: later → f.isWhole = true →
    Line d (w.runWith d records).2 w.policy f earlier later
  /-- The size of an open segment is that of its file. -/
  size : ∀ channel s, (w.runWith d records).1.segments.get? channel = some s →
    ∃ content, (w.runWith d records).2.contentAt? s.path = some content ∧ s.size = content.size

/-- Wherever the disk fails it and whatever was there, a run leaves each line that is written with
success where it was put, in the segments of its channel and day and in order.  It has a line of its
own unless a fragment is the last thing in front of it. -/
theorem runWith_leaves {d : Disk} (regular : d.Regular) (policies : Table UInt16 LogPolicy)
    (records : List (Record × Option Trouble)) : Leaves { policies } d records := by
  have tracked := (Tracked.start regular policies).run records
  rw [List.nil_append] at tracked
  refine ⟨Writer.filings_whole .., tracked.ordered, tracked.parts, tracked.text, ?line, ?size⟩
  case line =>
    intro earlier f later split whole
    have member := split ▸ List.mem_append_right earlier (List.mem_cons_self ..)
    have line := tracked.parts f member
    rw [Filing.IsFrom, if_pos whole] at line
    refine ⟨?_, f.record.isEnded_line _, isEnded_join _ _⟩
    rw [tracked.text, split, List.append_cons, Filing.textsAt_append, Filing.textsAt_append,
      Filing.textsAt_singleton, if_pos rfl, ← line]
    simp only [String.join_append, String.join_cons, String.join_nil, String.append_empty,
      String.append_assoc]
  case size =>
    intro channel s there
    have stands := tracked.stands channel s there
    exact ⟨_, Disk.contentAt?_of_file stands.file, stands.size⟩

/-- Two records of one day.  The disk fails the first one in the middle of its line. -/
def tornRun : List (Record × Option Trouble) :=
  let connect (time : Instant) : Record := { channel := 7, time, purpose := .connect }
  [(connect 0, some (.writing 10)), (connect 1000, none)]

theorem tornRun_leaves : ({} : Disk).Regular ∧ Leaves {} {} tornRun :=
  ⟨Disk.empty_regular, runWith_leaves Disk.empty_regular {} tornRun⟩

/-- The second record is appended with success, and no file has its line as a line of its own. -/
theorem torn_line_joined :
    let second : Record := { channel := 7, time := 1000, purpose := .connect }
    let d' := (({} : Writer).runWith {} tornRun).2
    ({} : Writer).appended {} tornRun = [second] ∧
      d'.plainText (segmentPath 7 ⟨1970, 1, 1⟩ 0) = "1970-01-01" ++ second.line .info ∧
      ∀ path ∈ d'.items.keys, (second.line .info).toList ∉
        ((d'.plainText path).toList.splitOn '\n').map (· ++ ['\n']) := by
  decide +kernel

end Fieldbus.Log
