import Mathlib.Data.List.Nodup
import Fieldbus.Log.Retention
import Fieldbus.Proofs.Log.Files

/-!
# Regular disks

Retention works in folders that hold anything, other folders included, so it asks less of a disk
than the writer does: the items are a tree, and a file has one path (`Disk.Regular`).  What can be
seen at a path is nothing, a folder or the content of a file (`Disk.entryAt?`), and each operation
has one equation for that.
-/

namespace Fieldbus.Log

namespace Disk

/-- What is seen at a path: nothing, a folder, or the content of a file. -/
def entryAt? (d : Disk) (path : Path) : Option (Option Content) :=
  (d.item? path).map fun
    | .folder => none
    | .file n => some (d.content n)

/-- The items are a tree.  A file has one path, and what has no number yet has no content. -/
structure Regular (d : Disk) : Prop where
  keys : d.items.keys.Nodup
  parent : ∀ {path item}, path ≠ [] → d.item? path = some item →
    d.item? path.dropLast = some .folder
  used : ∀ {path n}, d.item? path = some (.file n) → n < d.next
  onePath : ∀ {path other n}, d.item? path = some (.file n) → d.item? other = some (.file n) →
    path = other
  blank : ∀ {n}, d.next ≤ n → d.content n = []

variable {d d' : Disk} {path other : Path} {file : Nat} {content : Content}

theorem empty_regular : Regular {} := by
  have items {path : Path} {item : Item} (h : ({} : Disk).item? path = some item) :
      path = [] ∧ item = .folder := by
    unfold item? at h
    split at h
    next root => exact ⟨root, (Option.some.inj h).symm⟩
    next => cases h
  refine ⟨List.nodup_nil, fun below h => absurd (items h).1 below, fun h => ?_, fun h => ?_,
    fun _ => rfl⟩
  · cases (items h).2
  · cases (items h).2

theorem contentAt?_eq (d : Disk) (path : Path) : d.contentAt? path = (d.entryAt? path).join := by
  unfold contentAt? entryAt?
  cases d.item? path with
  | none => rfl
  | some item => cases item <;> rfl

theorem entryAt?_eq_none_iff : d.entryAt? path = none ↔ d.item? path = none := by simp [entryAt?]

theorem entryAt?_of_file (there : d.item? path = some (.file file)) :
    d.entryAt? path = some (some (d.content file)) := by
  simp [entryAt?, there]

theorem file_of_entryAt? (there : d.entryAt? path = some (some content)) :
    ∃ n, d.item? path = some (.file n) := by
  unfold entryAt? at there
  cases item : d.item? path with
  | none => simp [item] at there
  | some found =>
    cases found with
    | folder => simp [item] at there
    | file n => exact ⟨n, rfl⟩

theorem entryAt?_congr (items : d'.item? path = d.item? path)
    (contents : ∀ n, d.item? path = some (.file n) → d'.content n = d.content n) :
    d'.entryAt? path = d.entryAt? path := by
  unfold entryAt?
  rw [items]
  cases item : d.item? path with
  | none => rfl
  | some found =>
    cases found with
    | folder => rfl
    | file n => simp [contents n item]

/-! ## Names -/

/-- What a folder names is there. -/
theorem mem_namesIn {folder : Path} {name : String} :
    name ∈ d.namesIn folder ↔ d.entryAt? (folder ++ [name]) ≠ none := by
  have below : folder ++ [name] ≠ [] := by simp
  rw [ne_eq, entryAt?_eq_none_iff, ← ne_eq, item?, if_neg below, namesIn, List.mem_filterMap]
  constructor
  · rintro ⟨path, member, named⟩
    split at named
    next above =>
      obtain rfl : path = folder ++ [name] := by
        rw [← above]
        exact (List.dropLast_append_getLast? name named).symm
      obtain ⟨entry, inside, same⟩ := List.mem_map.mp member
      have found : (d.items.entries.find? fun entry => entry.1 = folder ++ [name]).isSome :=
        List.find?_isSome.mpr ⟨entry, inside, by simp [same]⟩
      rw [Table.get?, ← Option.isSome_iff_ne_none, Option.isSome_map]
      exact found
    next => cases named
  · intro there
    exact ⟨_, Table.mem_keys_of_get? (Option.isSome_iff_ne_none.mpr there), by simp⟩

theorem Regular.nodup_namesIn (regular : d.Regular) (folder : Path) : (d.namesIn folder).Nodup := by
  refine regular.keys.filterMap fun path path' name here here' => ?_
  simp only [Option.mem_def] at here here'
  split at here
  next above =>
    split at here'
    next above' =>
      rw [← List.dropLast_append_getLast? name here, ← List.dropLast_append_getLast? name here',
        above, above']
    next => cases here'
  next => cases here

/-! ## Putting something into a file -/

/-- A file that has a number is given another content. -/
theorem Regular.setContent (regular : d.Regular) (used : file < d.next) (content : Content) :
    (d.setContent file content).Regular := by
  refine ⟨regular.keys, regular.parent, regular.used, regular.onePath, fun {n} unused => ?_⟩
  have apart : file ≠ n := fun same => absurd used (same ▸ Nat.not_lt.mpr unused)
  rw [Disk.content, Disk.setContent, Table.get?_insert, if_neg apart]
  exact regular.blank unused

theorem Regular.append (regular : d.Regular) (used : file < d.next) (piece : Piece) :
    (d.append file piece).Regular := regular.setContent used _

/-- What is put behind a file is seen at its path only. -/
theorem Regular.entryAt?_append (regular : d.Regular) (there : d.item? path = some (.file file))
    (piece : Piece) (other : Path) :
    (d.append file piece).entryAt? other =
      if other = path then some (some (d.content file ++ [piece])) else d.entryAt? other := by
  have items : ∀ other, (d.append file piece).item? other = d.item? other := fun _ => rfl
  by_cases same : other = path
  · subst same
    rw [if_pos rfl, entryAt?_of_file ((items other).trans there), content_append, if_pos rfl]
  · rw [if_neg same]
    refine entryAt?_congr (items other) fun n found => ?_
    rw [content_append, if_neg]
    rintro rfl
    exact same (regular.onePath found there)

/-! ## New items -/

/-- A folder or a file with a new number is put where nothing is. -/
theorem Regular.withItem (regular : d.Regular) (absent : d.item? path = none)
    (above : d.item? path.dropLast = some .folder) {item : Item} {next : Nat}
    (numbered : item = .folder ∧ next = d.next ∨ item = .file d.next ∧ next = d.next + 1) :
    (d.withItem path item next).Regular := by
  have later : d.next ≤ next := by
    rcases numbered with ⟨-, rfl⟩ | ⟨-, rfl⟩
    · exact Nat.le_refl _
    · exact Nat.le_succ _
  have file {other : Path} {n : Nat}
      (there : (d.withItem path item next).item? other = some (.file n)) :
      (other = path ∧ n = d.next ∧ next = d.next + 1) ∨ d.item? other = some (.file n) := by
    rcases item?_withItem_cases absent there with ⟨same, found⟩ | before
    · rcases numbered with ⟨folder, -⟩ | ⟨fresh, more⟩
      · cases found.trans folder
      · cases found.trans fresh
        exact .inl ⟨same, rfl, more⟩
    · exact .inr before
  refine ⟨Table.nodup_keys_insert regular.keys _ _, fun {other found} below there => ?_,
    fun there => ?_, fun there there' => ?_,
    fun unused => regular.blank (Nat.le_trans later unused)⟩
  · rcases item?_withItem_cases absent there with ⟨rfl, -⟩ | before
    · exact item?_withItem_kept absent above
    · exact item?_withItem_kept absent (regular.parent below before)
  · show _ < next
    rcases file there with ⟨-, rfl, more⟩ | before
    · omega
    · exact Nat.lt_of_lt_of_le (regular.used before) later
  · rcases file there with ⟨rfl, rfl, -⟩ | before
    · rcases file there' with ⟨rfl, -, -⟩ | before'
      · rfl
      · exact absurd (regular.used before') (Nat.lt_irrefl _)
    · rcases file there' with ⟨rfl, rfl, -⟩ | before'
      · exact absurd (regular.used before) (Nat.lt_irrefl _)
      · exact regular.onePath before before'

/-- A file that is opened is there, and empty if it was not there before. -/
theorem Regular.openAppend (regular : d.Regular) (opened : d.openAppend? path = some (d', file)) :
    d'.Regular ∧ d'.item? path = some (.file file) ∧
      d'.content file = (d.contentAt? path).getD [] ∧
      ∀ other, other ≠ path → d'.entryAt? other = d.entryAt? other := by
  unfold openAppend? at opened
  split at opened
  next n there =>
    cases opened
    exact ⟨regular, there, by rw [contentAt?_of_file there]; rfl, fun _ _ => rfl⟩
  next => cases opened
  next absent =>
    split at opened
    next above =>
      cases opened
      refine ⟨regular.withItem absent above (.inr ⟨rfl, rfl⟩), item?_withItem_self absent, ?_, ?_⟩
      · rw [contentAt?_of_not_file fun n there => by cases absent.symm.trans there]
        exact regular.blank (Nat.le_refl _)
      · intro other apart
        exact entryAt?_congr ((item?_withItem absent _ _ other).trans (if_neg apart)) fun _ _ => rfl
    next => cases opened

/-! ## Losing a path -/

theorem Regular.removeFile (regular : d.Regular) (removed : d.removeFile? path = some d') :
    d'.Regular ∧ (∃ n, d.item? path = some (.file n)) ∧
      ∀ other, d'.entryAt? other = if other = path then none else d.entryAt? other := by
  unfold removeFile? at removed
  split at removed
  next n there =>
    cases removed
    have below : path ≠ [] := by
      rintro rfl
      cases there
    have items (other : Path) : ({ d with items := d.items.erase path } : Disk).item? other =
        if other = path then none else d.item? other := by
      unfold item?
      rw [Table.get?_erase]
      by_cases root : other = []
      · subst root
        rw [if_pos rfl, if_pos rfl, if_neg (Ne.symm below)]
      · rw [if_neg root, if_neg root]
    have kept {other : Path} {item : Item}
        (found : ({ d with items := d.items.erase path } : Disk).item? other = some item) :
        d.item? other = some item := by
      rw [items] at found
      split at found
      next => cases found
      next => exact found
    refine ⟨⟨Table.nodup_keys_erase regular.keys _, fun {other _} below found => ?_,
      fun found => regular.used (kept found),
      fun found found' => regular.onePath (kept found) (kept found'), regular.blank⟩,
      ⟨n, there⟩, fun other => ?_⟩
    · -- A file has nothing below it.
      have above := regular.parent below (kept found)
      rw [items, if_neg, above]
      intro same
      rw [same, there] at above
      cases above
    · by_cases same : other = path
      · subst same
        rw [if_pos rfl, entryAt?_eq_none_iff, items, if_pos rfl]
      · rw [if_neg same]
        exact entryAt?_congr ((items other).trans (if_neg same)) fun _ _ => rfl
  next => cases removed

/-! ## Putting texts on a disk -/

theorem Regular.makeFoldersFrom (regular : d.Regular) {above : Path}
    (there : d.item? above = some .folder) (names : List String) :
    (d.makeFoldersFrom above names).1.Regular := by
  induction names generalizing d above with
  | nil => exact regular
  | cons name rest ih =>
    unfold Disk.makeFoldersFrom
    dsimp only
    split
    next found => exact ih regular found
    next => exact regular
    next absent =>
      have up : d.item? (above ++ [name]).dropLast = some .folder := by rwa [List.dropLast_concat]
      exact ih (d := d.withItem (above ++ [name]) .folder d.next)
        (regular.withItem absent up (.inl ⟨rfl, rfl⟩)) (item?_withItem_self absent)

theorem Regular.put (regular : d.Regular) (path : Path) (text : String) :
    (d.put path text).Regular := by
  have root : d.item? [] = some .folder := rfl
  have made := regular.makeFoldersFrom root path.dropLast
  unfold Disk.put Disk.makeFolders
  dsimp only
  split
  next opened =>
    obtain ⟨regular', there, -⟩ := made.openAppend opened
    exact regular'.setContent (regular'.used there) _
  next => exact made

/-! ## Moving a segment to its archive -/

/-- What is in the file is put into the archive. -/
theorem Regular.pack (regular : d.Regular) (packed : Log.pack d path = (d', true)) :
    ∃ content, d.contentAt? path = some content ∧ d'.Regular ∧
      ∀ other, d'.entryAt? other =
        if other = archivePath path then
          some (some ((d.contentAt? (archivePath path)).getD [] ++ [.packed content.plain]))
        else d.entryAt? other := by
  unfold Log.pack at packed
  dsimp only at packed
  split at packed
  next => cases packed
  next =>
    cases opened : d.openAppend? (archivePath path) with
    | none => simp [opened] at packed
    | some found =>
      obtain ⟨grown, archive⟩ := found
      obtain ⟨regular', there, same, kept⟩ := regular.openAppend opened
      cases source : d.contentAt? path with
      | none => simp [opened, source] at packed
      | some content =>
        simp only [opened, source, Prod.mk.injEq, and_true] at packed
        subst packed
        refine ⟨content, rfl, regular'.append (regular'.used there) _, fun other => ?_⟩
        rw [regular'.entryAt?_append there, same]
        split
        next => rfl
        next apart => exact kept other apart

/-- What is in the file is put into the archive, and the file is gone. -/
theorem Regular.compress (regular : d.Regular) (moved : Log.compress d path = (d', true)) :
    ∃ content, d.contentAt? path = some content ∧ d'.Regular ∧
      ∀ other, d'.entryAt? other =
        if other = path then none
        else if other = archivePath path then
          some (some ((d.contentAt? (archivePath path)).getD [] ++ [.packed content.plain]))
        else d.entryAt? other := by
  unfold Log.compress at moved
  split at moved
  next => cases moved
  next between packed =>
    obtain ⟨content, there, regular', entries⟩ := regular.pack packed
    rw [if_neg (by simp)] at moved
    split at moved
    next last removed =>
      cases moved
      obtain ⟨regular'', -, gone⟩ := regular'.removeFile removed
      refine ⟨content, there, regular'', fun other => ?_⟩
      rw [gone, entries]
    next => cases moved

end Disk

end Fieldbus.Log
