import Fieldbus.Proofs.Log.Appending
import Fieldbus.Proofs.Log.NameParsing

/-!
# Segments and archives on one disk

Retention moves segments to archives, so besides growing (`Disk.Grows`) a disk changes in two more
ways.  Something is put behind a file that has a path or none, and a file loses its path
(`Disk.Loses`).  A disk stays one of segments and archives of whole members (`Disk.Tidy`), and for
each change there is one equation for the text of a segment and that of its archive.
-/

namespace Fieldbus.Log

open Writer (segmentPath)

/-! ## Texts -/

namespace Disk

/-- The text of a file, or nothing. -/
def plainText (d : Disk) (path : Path) : String := ((d.contentAt? path).map Content.plain).getD ""

/-- The text of the archive of a segment, or nothing. -/
def archiveText (d : Disk) (path : Path) : String :=
  ((d.contentAt? (archivePath path)).bind Content.unpack?).getD ""

variable {d d' : Disk} {path other : Path} {file : Nat} {new : Path → Prop}

theorem plainText_congr (same : d'.contentAt? path = d.contentAt? path) :
    d'.plainText path = d.plainText path := by
  rw [plainText, same, plainText]

theorem archiveText_congr
    (same : d'.contentAt? (archivePath path) = d.contentAt? (archivePath path)) :
    d'.archiveText path = d.archiveText path := by
  rw [archiveText, same, archiveText]

/-- Nothing new can be read on a disk that has grown. -/
theorem Grows.plainText_eq (h : d.Grows d' new) (sound : d.Sound) (path : Path) :
    d'.plainText path = d.plainText path := by
  rcases h.contentAt? sound path with same | ⟨_, none, blank⟩
  · exact plainText_congr same
  · rw [plainText, plainText, none, blank]
    rfl

theorem Grows.archiveText_eq (h : d.Grows d' new) (sound : d.Sound) (path : Path) :
    d'.archiveText path = d.archiveText path := by
  rcases h.contentAt? sound (archivePath path) with same | ⟨_, none, blank⟩
  · exact archiveText_congr same
  · rw [archiveText, archiveText, none, blank]
    rfl

/-! ## Putting something behind a file -/

theorem contentAt?_append_of_ne (apart : d.item? path ≠ some (.file file)) (piece : Piece) :
    (d.append file piece).contentAt? path = d.contentAt? path := by
  refine files_congr rfl fun n there => ?_
  rw [content_append, if_neg]
  rintro rfl
  exact apart there

theorem contentAt?_append (there : d.item? path = some (.file file)) (piece : Piece) :
    (d.append file piece).contentAt? path = some (d.content file ++ [piece]) := by
  have still : (d.append file piece).item? path = some (.file file) := there
  rw [contentAt?_of_file still, content_append, if_pos rfl]

/-! ## Losing a path -/

/-- A disk without the path of a file. -/
structure Loses (d d' : Disk) (path : Path) : Prop where
  sound : d'.Sound
  file : ∃ n, d.item? path = some (.file n)
  items : ∀ other, d'.item? other = if other = path then none else d.item? other
  contents : ∀ n, d'.content n = d.content n
  next : d'.next = d.next

theorem Sound.loses (sound : d.Sound) (removed : d.removeFile? path = some d') :
    d.Loses d' path := by
  unfold removeFile? at removed
  split at removed
  next n there =>
    cases removed
    have two := (sound.file there).1
    have items (other : Path) : ({ d with items := d.items.erase path } : Disk).item? other =
        if other = path then none else d.item? other := by
      unfold item?
      rw [Table.get?_erase]
      by_cases root : other = []
      · subst root
        have apart : [] ≠ path := by
          rintro rfl
          cases two
        rw [if_pos rfl, if_pos rfl, if_neg apart]
      · rw [if_neg root, if_neg root]
    have kept {other : Path} {item : Item}
        (found : ({ d with items := d.items.erase path } : Disk).item? other = some item) :
        d.item? other = some item := by
      rw [items] at found
      split at found
      next => cases found
      next => exact found
    refine ⟨⟨fun h => sound.folder (kept h), fun h => sound.file (kept h), fun {other n} h => ?_,
      fun h h' => sound.onePath (kept h) (kept h'), sound.blank⟩, ⟨n, there⟩, items, fun _ => rfl,
      rfl⟩
    have short : other.dropLast ≠ path := by
      intro same
      have own := (sound.file (kept h)).1
      rw [← same, List.length_dropLast] at two
      omega
    rw [items, if_neg short]
    exact sound.parent (kept h)
  next => cases removed

theorem Loses.contentAt?_self (h : d.Loses d' path) : d'.contentAt? path = none := by
  refine contentAt?_of_not_file fun n => ?_
  rw [h.items, if_pos rfl]
  exact Option.some_ne_none _ |>.symm

theorem Loses.contentAt?_other (h : d.Loses d' path) (apart : other ≠ path) :
    d'.contentAt? other = d.contentAt? other :=
  files_congr ((h.items other).trans (if_neg apart)) fun n _ => h.contents n

end Disk

/-! ## Packing -/

theorem Content.mapM_member?_packed (texts : List String) :
    (texts.map Piece.packed).mapM Content.member? = some texts := by
  induction texts with
  | nil => rfl
  | cons text rest ih =>
    rw [List.map_cons, List.mapM_cons, ih]
    rfl

theorem Content.unpack?_packed {texts : List String} (members : texts ≠ []) :
    Content.unpack? (texts.map .packed) = some (String.join texts) := by
  obtain ⟨text, rest, rfl⟩ := List.exists_cons_of_ne_nil members
  rw [unpack?, if_pos (by simp), mapM_member?_packed]
  rfl

/-- The archive of a segment is made or grows by what is in the segment. -/
theorem Disk.Sound.pack {d : Disk} (sound : d.Sound) {channel : UInt16} {day : Date}
    {number n : Nat}
    (there : d.item? (segmentPath channel day number) = some (.file n)) :
    ∃ grown archive,
      d.Grows grown (· = archivePath (segmentPath channel day number)) ∧
      grown.item? (archivePath (segmentPath channel day number)) = some (.file archive) ∧
      Fieldbus.Log.pack d (segmentPath channel day number) =
        (grown.append archive (.packed (d.plainText (segmentPath channel day number))), true) := by
  have exists_ : d.exists? (segmentPath channel day number) = true := by
    rw [Disk.exists?, there]
    rfl
  have above : d.item? (channelFolder channel) = some .folder := sound.parent there
  have two : (archivePath (segmentPath channel day number)).length = 2 := rfl
  obtain ⟨grown, archive, opened, grows, made⟩ := sound.openAppend_grows two above
  refine ⟨grown, archive, grows, made, ?_⟩
  simp [Fieldbus.Log.pack, exists_, opened, Disk.contentAt?_of_file there, Disk.plainText]

/-! ## What stands on the disk -/

/-- The path is that of a segment of a channel's day. -/
def IsSegmentOf (channel : UInt16) (day : Date) (path : Path) : Prop :=
  ∃ number, path = segmentPath channel day number

/-- The path of a segment or of the archive of one. -/
inductive IsLogPath : Path → Prop
  | segment {channel : UInt16} {day : Date} {number : Nat} :
    day.TwoDigit → IsLogPath (segmentPath channel day number)
  | archive {channel : UInt16} {day : Date} {number : Nat} :
    day.TwoDigit → IsLogPath (archivePath (segmentPath channel day number))

namespace Disk

/-- There are segments and archives only, and each archive has whole members. -/
structure Tidy (d : Disk) : Prop where
  sound : d.Sound
  named : ∀ {path n}, d.item? path = some (.file n) → IsLogPath path
  packed : ∀ {channel day number n},
    d.item? (archivePath (segmentPath channel day number)) = some (.file n) →
      ∃ texts, texts ≠ [] ∧ d.content n = texts.map .packed

variable {d d' : Disk} {channel : UInt16} {day : Date} {number : Nat} {path : Path} {file : Nat}

theorem empty_tidy : Tidy {} where
  sound := empty_sound
  named there := absurd (empty_sound.file there).2 (Nat.not_lt_zero _)
  packed there := absurd (empty_sound.file there).2 (Nat.not_lt_zero _)

theorem Tidy.grows (tidy : d.Tidy) (twoDigit : day.TwoDigit)
    (grows : d.Grows d' (IsSegmentOf channel day)) : d'.Tidy where
  sound := grows.sound
  named there := by
    rcases grows.items there with before | ⟨⟨number, rfl⟩, _⟩
    · exact tidy.named before
    · exact .segment twoDigit
  packed there := by
    rcases grows.items there with before | ⟨⟨number, same⟩, _⟩
    · rw [grows.contents]
      exact tidy.packed before
    · exact (archivePath_ne_segmentPath _ _ _ _ _ _ same).elim

/-- A text is put behind a file that is no archive. -/
theorem Tidy.append (tidy : d.Tidy) (used : file < d.next)
    (apart : ∀ channel day number,
      d.item? (archivePath (segmentPath channel day number)) ≠ some (.file file)) (text : String) :
    (d.append file (.text text)).Tidy where
  sound := tidy.sound.append_of_lt used _
  named there := tidy.named there
  packed {channel day number n} there := by
    have other : n ≠ file := by
      rintro rfl
      exact apart channel day number there
    rw [content_append, if_neg other]
    exact tidy.packed there

theorem Tidy.loses (tidy : d.Tidy) (loses : d.Loses d' path) : d'.Tidy := by
  have kept {other : Path} {n : Nat} (there : d'.item? other = some (.file n)) :
      d.item? other = some (.file n) := by
    rw [loses.items] at there
    split at there
    next => cases there
    next => exact there
  refine ⟨loses.sound, fun there => tidy.named (kept there), fun there => ?_⟩
  rw [loses.contents]
  exact tidy.packed (kept there)

/-- An archive that was there before or is new has whole members only. -/
theorem Tidy.packed_of_grows (tidy : d.Tidy) {new : Path → Prop} (grows : d.Grows d' new)
    (there : d'.item? (archivePath (segmentPath channel day number)) = some (.file file)) :
    ∃ texts : List String, d'.content file = texts.map .packed := by
  rw [grows.contents]
  rcases grows.items there with before | ⟨_, fresh⟩
  · obtain ⟨texts, _, same⟩ := tidy.packed before
    exact ⟨texts, same⟩
  · exact ⟨[], tidy.sound.blank fresh⟩

/-- A segment was put into its archive. -/
theorem Tidy.archived (tidy : d.Tidy) (twoDigit : day.TwoDigit)
    (grows : d.Grows d' (· = archivePath (segmentPath channel day number)))
    (there : d'.item? (archivePath (segmentPath channel day number)) = some (.file file))
    (text : String) : (d'.append file (.packed text)).Tidy where
  sound := grows.sound.append_of_lt (grows.sound.file there).2 _
  named found := by
    rcases grows.items found with before | ⟨rfl, _⟩
    · exact tidy.named before
    · exact .archive twoDigit
  packed {channel' day' number' n} found := by
    rw [content_append]
    split
    next =>
      obtain ⟨texts, same⟩ := tidy.packed_of_grows grows there
      exact ⟨texts ++ [text], by simp, by rw [same, List.map_append]; rfl⟩
    next apart =>
      rcases grows.items found with before | ⟨same, _⟩
      · rw [grows.contents]
        exact tidy.packed before
      · have own : d'.item? (archivePath (segmentPath channel' day' number')) = some (.file n) :=
          found
        rw [same, there] at own
        cases own
        exact absurd rfl apart

/-! ## The texts of segments and archives -/

theorem plainText_append (there : d.item? path = some (.file file)) (text : String) :
    (d.append file (.text text)).plainText path = d.plainText path ++ text := by
  rw [plainText, plainText, contentAt?_append there, contentAt?_of_file there]
  simp [Content.plain, String.join_append]

theorem plainText_of_none (absent : d.contentAt? path = none) : d.plainText path = "" := by
  rw [plainText, absent]
  rfl

theorem archiveText_of_packed {texts : List String}
    (there : d.item? (archivePath path) = some (.file file))
    (packed : d.content file = texts.map .packed) : d.archiveText path = String.join texts := by
  rw [archiveText, contentAt?_of_file there, packed, Option.bind_some]
  cases texts with
  | nil => rfl
  | cons text rest =>
    rw [Content.unpack?_packed (List.cons_ne_nil text rest)]
    rfl

/-- What is put into an archive stands behind what was in it. -/
theorem Tidy.archiveText_archived (tidy : d.Tidy)
    (grows : d.Grows d' (· = archivePath (segmentPath channel day number)))
    (there : d'.item? (archivePath (segmentPath channel day number)) = some (.file file))
    (text : String) :
    (d'.append file (.packed text)).archiveText (segmentPath channel day number) =
      d.archiveText (segmentPath channel day number) ++ text := by
  obtain ⟨texts, same⟩ := tidy.packed_of_grows grows there
  have own : (d'.append file (.packed text)).content file = (texts ++ [text]).map .packed := by
    rw [content_append, if_pos rfl, same, List.map_append]
    rfl
  rw [← grows.archiveText_eq tidy.sound, archiveText_of_packed there same,
    archiveText_of_packed (d := d'.append file (.packed text)) there own, String.join_append]
  simp

end Disk

end Fieldbus.Log
