import Fieldbus.Proofs.Log.Archives

/-!
# Open segments

The file of an open segment may lose its path, and go on under its number.  `Segment.Open.Held`
says what holds of an open segment in either case: no other file has its path, and its file has no
other path.  `target_aims` says what the search for a segment does to the writer and the disk,
whatever retention has done before and wherever the disk fails.
-/

namespace Fieldbus.Log

open Writer (segmentPath openNumber openNewest)

/-! ## Open segments -/

/-- A segment that the writer of a channel has open. -/
structure Segment.Open.Held (s : Segment.Open) (d : Disk) (channel : UInt16) : Prop where
  twoDigit : s.day.TwoDigit
  path : s.path = segmentPath channel s.day s.number
  folder : d.item? (channelFolder channel) = some .folder
  file : s.file < d.next
  /-- No other file has its path. -/
  own : ∀ {n}, d.item? s.path = some (.file n) → n = s.file
  /-- Its file has no other path. -/
  only : ∀ {path}, d.item? path = some (.file s.file) → path = s.path

namespace Segment.Open.Held

variable {s : Segment.Open} {d d' : Disk} {channel : UInt16} {new : Path → Prop} {path : Path}

theorem grows (h : s.Held d channel) (grows : d.Grows d' new) (away : ¬ new s.path) :
    s.Held d' channel where
  twoDigit := h.twoDigit
  path := h.path
  folder := grows.folders h.folder
  file := Nat.lt_of_lt_of_le h.file grows.next
  own there := by
    rcases grows.items there with before | ⟨made, _⟩
    · exact h.own before
    · exact absurd made away
  only there := by
    rcases grows.items there with before | ⟨_, fresh⟩
    · exact h.only before
    · exact absurd h.file (Nat.not_lt.mpr fresh)

/-- Neither what is written nor a path that is lost makes a difference. -/
theorem of_items (h : s.Held d channel) (next : d'.next = d.next)
    (folders : ∀ path, d.item? path = some .folder → d'.item? path = some .folder)
    (items : ∀ path n, d'.item? path = some (.file n) → d.item? path = some (.file n)) :
    s.Held d' channel where
  twoDigit := h.twoDigit
  path := h.path
  folder := folders _ h.folder
  file := next ▸ h.file
  own there := h.own (items _ _ there)
  only there := h.only (items _ _ there)

theorem append (h : s.Held d channel) (file : Nat) (piece : Piece) :
    s.Held (d.append file piece) channel :=
  h.of_items rfl (fun _ => id) fun _ _ => id

theorem loses (h : s.Held d channel) (loses : d.Loses d' path) : s.Held d' channel := by
  obtain ⟨n, there⟩ := loses.file
  refine h.of_items loses.next (fun other folder => ?_) fun other n found => ?_
  · rw [loses.items, if_neg, folder]
    rintro rfl
    rw [there] at folder
    cases folder
  · rw [loses.items] at found
    split at found
    next => cases found
    next => exact found

/-- A file that has a number and one path is held by whoever opens it. -/
theorem of_file {day : Date} {number file size : Nat} (sound : d.Sound) (twoDigit : day.TwoDigit)
    (there : d.item? (segmentPath channel day number) = some (.file file)) :
    Segment.Open.Held ⟨day, number, segmentPath channel day number, file, size⟩ d channel where
  twoDigit := twoDigit
  path := rfl
  folder := sound.parent there
  file := (sound.file there).2
  own found := by
    rw [there] at found
    cases found
    rfl
  only found := sound.onePath found there

theorem resize (h : s.Held d channel) (size : Nat) :
    Segment.Open.Held { s with size := size } d channel where
  twoDigit := h.twoDigit
  path := h.path
  folder := h.folder
  file := h.file
  own := h.own
  only := h.only

/-- The file of an open segment is no archive. -/
theorem ne_archive (h : s.Held d channel) (channel' : UInt16) (day : Date) (number : Nat) :
    d.item? (archivePath (segmentPath channel' day number)) ≠ some (.file s.file) := by
  intro there
  exact archivePath_ne_segmentPath _ _ _ _ _ _ ((h.only there).trans h.path)

end Segment.Open.Held

/-! ## Finding a segment -/

/-- The writer has another segment open for a channel, and all else is as before. -/
structure Writer.Opens (w w' : Writer) (channel : UInt16) (s : Segment.Open) : Prop where
  own : w'.segments.get? channel = some s
  others : ∀ other, other ≠ channel → w'.segments.get? other = w.segments.get? other
  active : w'.active = w.active
  policies : w'.policies = w.policies

theorem Writer.opens_insert (w : Writer) (channel : UInt16) (s : Segment.Open) :
    w.Opens { w with segments := w.segments.insert channel s } channel s where
  own := by rw [Table.get?_insert, if_pos rfl]
  others other foreign := by rw [Table.get?_insert, if_neg (Ne.symm foreign)]
  active := rfl
  policies := rfl

theorem Writer.Opens.trans {w w' w'' : Writer} {channel : UInt16} {s t : Segment.Open}
    (h : w.Opens w' channel s) (h' : w'.Opens w'' channel t) : w.Opens w'' channel t where
  own := h'.own
  others other foreign := (h'.others other foreign).trans (h.others other foreign)
  active := h'.active.trans h.active
  policies := h'.policies.trans h.policies

/-- What a writer and its disk are after it has looked for a segment, and which one it found. -/
inductive Aims (w : Writer) (d : Disk) (channel : UInt16) (day : Date) :
    Writer × Disk × Option Segment.Open → Prop
  /-- It has opened none. -/
  | stays {d' : Disk} {found : Option Segment.Open} :
    d.Grows d' (fun _ => False) →
    (∀ s ∈ found, w.segments.get? channel = some s ∧ s.day = day) →
    Aims w d channel day (w, d', found)
  /-- It has opened one, and may have failed after that. -/
  | opens {w' : Writer} {d' : Disk} {s : Segment.Open} {found : Option Segment.Open} :
    w.Opens w' channel s → d.Grows d' (IsSegmentOf channel day) → s.Held d' channel →
    d'.item? s.path = some (.file s.file) → (∀ t ∈ found, t = s ∧ t.day = day) →
    Aims w d channel day (w', d', found)

section Aiming

variable {w : Writer} {d : Disk} {channel : UInt16} {day : Date} {trouble : Option Trouble}

theorem openNumber_opens (sound : d.Sound) (twoDigit : day.TwoDigit)
    (folder : d.item? (channelFolder channel) = some .folder) (number : Nat) :
    ∃ d' s, openNumber d channel day number = some (d', s) ∧
      d.Grows d' (IsSegmentOf channel day) ∧ s.Held d' channel ∧
      d'.item? s.path = some (.file s.file) ∧ s.day = day := by
  have two : (segmentPath channel day number).length = 2 := rfl
  obtain ⟨d', file, opened, grows, there⟩ := sound.openAppend_grows two folder
  refine ⟨d', _, by simp only [openNumber, opened, Option.map_some]; rfl,
    grows.mono fun path own => ⟨number, own⟩, .of_file grows.sound twoDigit there, there, rfl⟩

theorem find_aims (sound : d.Sound) (twoDigit : day.TwoDigit) :
    Aims w d channel day (w.find d channel day trouble) := by
  unfold Writer.find
  cases kept : (w.segments.get? channel).filter fun s => s.day = day with
  | some s =>
    refine .stays sound.grows_refl fun t found => ?_
    cases found
    obtain ⟨there, own⟩ := Option.filter_eq_some_iff.mp kept
    exact ⟨there, of_decide_eq_true own⟩
  | none =>
    unfold openNewest
    by_cases failed : trouble = some .folder
    · rw [if_pos failed]
      exact .stays sound.grows_refl fun t found => by cases found
    · obtain ⟨d₁, made, grows₁, folder⟩ := sound.makeFolder_grows (toString channel.toNat)
      have folders : d.makeFolders (channelFolder channel) = (d₁, true) := made
      rw [if_neg failed]
      simp only [folders, Bool.not_true, Bool.false_or, decide_eq_true_eq]
      by_cases failed : trouble = some .opening
      · rw [if_pos failed]
        exact .stays grows₁ fun t found => by cases found
      · obtain ⟨d₂, s, opened, grows₂, held, there, own⟩ :=
          openNumber_opens grows₁.sound twoDigit folder (Writer.newest d₁ channel day)
        rw [if_neg failed, opened]
        refine .opens (w.opens_insert channel s)
          ((grows₁.mono fun _ => False.elim).trans grows₂) held there fun t found => ?_
        cases found
        exact ⟨rfl, own⟩

theorem rotate_aims {w' : Writer} {d' : Disk} {s : Segment.Open} {size : Nat}
    (twoDigit : day.TwoDigit) (held : s.Held d' channel) (sound : d'.Sound)
    (found : Aims w d channel day (w', d', some s)) :
    Aims w d channel day (w'.rotate d' channel day size trouble s) := by
  unfold Writer.rotate
  split
  next =>
    split
    next =>
      cases found with
      | stays grows _ => exact .stays grows fun t none => by cases none
      | opens opens grows held there _ =>
        exact .opens opens grows held there fun t none => by cases none
    next =>
      obtain ⟨d₂, t, opened, grows₂, held₂, there, own⟩ :=
        openNumber_opens sound twoDigit held.folder (s.number + 1)
      rw [opened]
      cases found with
      | stays grows _ =>
        refine .opens (w.opens_insert channel t) ((grows.mono fun _ => False.elim).trans grows₂)
          held₂ there fun u same => ?_
        cases same
        exact ⟨rfl, own⟩
      | opens opens grows _ _ _ =>
        refine .opens (opens.trans (w'.opens_insert channel t)) (grows.trans grows₂) held₂ there
          fun u same => ?_
        cases same
        exact ⟨rfl, own⟩
  next => exact found

theorem target_aims (sound : d.Sound) (twoDigit : day.TwoDigit)
    (held : ∀ s, w.segments.get? channel = some s → s.Held d channel) (size : Nat) :
    Aims w d channel day (w.target d channel day size trouble) := by
  rw [Writer.target_eq]
  have found : Aims w d channel day (w.find d channel day trouble) := find_aims sound twoDigit
  generalize w.find d channel day trouble = aimed at found
  obtain ⟨w', d', one⟩ := aimed
  cases one with
  | none => exact found
  | some s =>
    have grown : s.Held d' channel ∧ d'.Sound := by
      cases found with
      | stays grows own => exact ⟨(held s (own s rfl).1).grows grows id, grows.sound⟩
      | opens _ grows held' _ same =>
        rw [(same s rfl).1]
        exact ⟨held', grows.sound⟩
    exact rotate_aims twoDigit grown.1 grown.2 found

end Aiming

end Fieldbus.Log
