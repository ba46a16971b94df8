import Fieldbus.Log.Disk

/-!
# The files of a log's disk

Of a disk from which nothing is taken away, what matters is the content at each path.
`Disk.files` is that view, and each operation that a log is written with has one equation
through it: folders change no file, opening a file makes an empty one where there was none, and
what is appended to a file stands behind the content of its path and of no other.

The equations hold of disks with folders below the root and files below those (`Disk.Sound`).  A
file then has one path, and a number that is given to a new file was never used.  Making a folder
and opening a file let the disk grow (`Disk.Grows`): what is new is empty.
-/

namespace Fieldbus.Log

/-- Contents by path. -/
abbrev Files := Path → Option Content

namespace Files

/-- The files after something is put behind the content of a path.  A path without a file gets
one. -/
def extend (files : Files) (path : Path) (more : Content) : Files := fun other =>
  if other = path then some ((files path).getD [] ++ more) else files other

theorem extend_self (files : Files) (path : Path) (more : Content) :
    files.extend path more path = some ((files path).getD [] ++ more) := if_pos rfl

theorem extend_other (files : Files) {path other : Path} (h : other ≠ path) (more : Content) :
    files.extend path more other = files other := if_neg h

theorem extend_extend (files : Files) (path : Path) (more again : Content) :
    (files.extend path more).extend path again = files.extend path (more ++ again) := by
  funext other
  by_cases h : other = path
  · subst h
    simp only [extend_self, Option.getD_some, List.append_assoc]
  · simp only [extend_other _ h]

/-- Nothing behind a content that is there changes nothing. -/
theorem extend_nil {files : Files} {path : Path} {content : Content}
    (h : files path = some content) : files.extend path [] = files := by
  funext other
  by_cases same : other = path
  · subst same
    rw [extend_self, h, Option.getD_some, List.append_nil]
  · exact extend_other files same []

end Files

theorem Content.size_append_text (content : Content) (text : String) :
    Content.size (content ++ [.text text]) = content.size + text.utf8ByteSize := by
  simp [Content.size, Content.plain, String.join_append]

namespace Disk

variable {d d' : Disk} {path other : Path} {file : Nat}

/-- The contents of a disk by path. -/
def files (d : Disk) : Files := d.contentAt?

theorem contentAt?_of_file (h : d.item? path = some (.file file)) :
    d.contentAt? path = some (d.content file) := by
  simp [contentAt?, h]

theorem contentAt?_of_not_file (h : ∀ n, d.item? path ≠ some (.file n)) :
    d.contentAt? path = none := by
  unfold contentAt?
  split
  next n there => exact absurd there (h n)
  next => rfl

theorem files_file (h : d.item? path = some (.file file)) :
    d.files path = some (d.content file) := contentAt?_of_file h

theorem files_none (h : d.item? path = none) : d.files path = none := by
  simp [files, contentAt?, h]

theorem files_congr (items : d'.item? path = d.item? path)
    (contents : ∀ n, d.item? path = some (.file n) → d'.content n = d.content n) :
    d'.files path = d.files path := by
  unfold files contentAt?
  rw [items]
  split
  next n there => rw [contents n there]
  next => rfl

/-- The disk with an item at a path. -/
def withItem (d : Disk) (path : Path) (item : Item) (next : Nat) : Disk :=
  { d with items := d.items.insert path item, next := next }

section Placing

variable {item found : Item} {next : Nat} (absent : d.item? path = none)
include absent

theorem item?_withItem (item : Item) (next : Nat) (other : Path) :
    (d.withItem path item next).item? other =
      if other = path then some item else d.item? other := by
  have below : path ≠ [] := by
    rintro rfl
    cases absent
  unfold item? withItem
  by_cases root : other = []
  · subst root
    rw [if_pos rfl, if_pos rfl, if_neg fun same => below same.symm]
  · rw [if_neg root, if_neg root, Table.get?_insert]
    simp only [eq_comm]

theorem item?_withItem_self : (d.withItem path item next).item? path = some item :=
  (item?_withItem absent item next path).trans (if_pos rfl)

theorem item?_withItem_kept (there : d.item? other = some found) :
    (d.withItem path item next).item? other = some found := by
  rw [item?_withItem absent, if_neg, there]
  rintro rfl
  rw [absent] at there
  cases there

theorem item?_withItem_cases (there : (d.withItem path item next).item? other = some found) :
    (other = path ∧ found = item) ∨ d.item? other = some found := by
  rw [item?_withItem absent] at there
  split at there
  next same => exact .inl ⟨same, (Option.some.inj there).symm⟩
  next => exact .inr there

end Placing

/-! ## Soundness -/

/-- Folders stand below the root and files below those.  A file has one path, and what has no
number yet has no content. -/
structure Sound (d : Disk) : Prop where
  folder : ∀ {path}, d.item? path = some .folder → path.length ≤ 1
  file : ∀ {path n}, d.item? path = some (.file n) → path.length = 2 ∧ n < d.next
  parent : ∀ {path n}, d.item? path = some (.file n) → d.item? path.dropLast = some .folder
  onePath : ∀ {path other n}, d.item? path = some (.file n) → d.item? other = some (.file n) →
    path = other
  blank : ∀ {n}, d.next ≤ n → d.content n = []

theorem empty_sound : Sound {} := by
  have items (path : Path) (item : Item) (h : ({} : Disk).item? path = some item) :
      path = [] ∧ item = .folder := by
    unfold item? at h
    split at h
    next root => exact ⟨root, (Option.some.inj h).symm⟩
    next => cases h
  refine ⟨fun h => ?_, fun h => ?_, fun h => ?_, fun h => ?_, fun _ => rfl⟩
  · rw [(items _ _ h).1]
    exact Nat.zero_le _
  all_goals cases (items _ _ h).2

/-- A path of two names has a content if it names anything. -/
theorem Sound.exists?_eq (sound : d.Sound) (two : path.length = 2) :
    d.exists? path = (d.files path).isSome := by
  unfold exists?
  cases item : d.item? path with
  | none => rw [files_none item]; rfl
  | some found =>
    cases found with
    | folder => exact absurd (sound.folder item) (by omega)
    | file n => rw [files_file item]; rfl

/-- Every file keeps its path. -/
def Keeps (d d' : Disk) : Prop :=
  ∀ path n, d.item? path = some (.file n) → d'.item? path = some (.file n)

theorem Keeps.refl (d : Disk) : d.Keeps d := fun _ _ h => h

theorem Keeps.trans {d'' : Disk} (h : d.Keeps d') (h' : d'.Keeps d'') : d.Keeps d'' :=
  fun path n there => h' path n (h path n there)

/-! ## Operations -/

theorem Sound.withFolder (sound : d.Sound) (absent : d.item? path = none)
    (short : path.length ≤ 1) : (d.withItem path .folder d.next).Sound where
  folder h := by
    rcases item?_withItem_cases absent h with ⟨rfl, _⟩ | there
    · exact short
    · exact sound.folder there
  file h := by
    rcases item?_withItem_cases absent h with ⟨_, ⟨⟩⟩ | there
    exact sound.file there
  parent h := by
    rcases item?_withItem_cases absent h with ⟨_, ⟨⟩⟩ | there
    exact item?_withItem_kept absent (sound.parent there)
  onePath h h' := by
    rcases item?_withItem_cases absent h with ⟨_, ⟨⟩⟩ | there
    rcases item?_withItem_cases absent h' with ⟨_, ⟨⟩⟩ | there'
    exact sound.onePath there there'
  blank h := sound.blank h

theorem Sound.withFile (sound : d.Sound) (absent : d.item? path = none) (two : path.length = 2)
    (folder : d.item? path.dropLast = some .folder) :
    (d.withItem path (.file d.next) (d.next + 1)).Sound where
  folder h := by
    rcases item?_withItem_cases absent h with ⟨_, ⟨⟩⟩ | there
    exact sound.folder there
  file h := by
    rcases item?_withItem_cases absent h with ⟨rfl, ⟨⟩⟩ | there
    · exact ⟨two, Nat.lt_succ_self _⟩
    · exact ⟨(sound.file there).1, Nat.lt_succ_of_lt (sound.file there).2⟩
  parent h := by
    rcases item?_withItem_cases absent h with ⟨rfl, _⟩ | there
    · exact item?_withItem_kept absent folder
    · exact item?_withItem_kept absent (sound.parent there)
  -- The new file has a number that no other has.
  onePath h h' := by
    rcases item?_withItem_cases absent h with ⟨rfl, ⟨⟩⟩ | there <;>
      rcases item?_withItem_cases absent h' with ⟨rfl, same⟩ | there'
    · rfl
    · exact absurd (sound.file there').2 (Nat.lt_irrefl _)
    · cases same
      exact absurd (sound.file there).2 (Nat.lt_irrefl _)
    · exact sound.onePath there there'
  blank h := sound.blank (Nat.le_of_succ_le h)

/-! ## Growing -/

variable {d'' : Disk} {new new' : Path → Prop}

/-- A disk with more folders, and with more files at paths of some kind.  They are empty. -/
structure Grows (d d' : Disk) (new : Path → Prop) : Prop where
  sound : d'.Sound
  folders : ∀ {path}, d.item? path = some .folder → d'.item? path = some .folder
  files : d.Keeps d'
  items : ∀ {path n}, d'.item? path = some (.file n) →
    d.item? path = some (.file n) ∨ new path ∧ d.next ≤ n
  contents : ∀ n, d'.content n = d.content n
  next : d.next ≤ d'.next

theorem Sound.grows_refl (sound : d.Sound) : d.Grows d new :=
  ⟨sound, id, .refl d, .inl, fun _ => rfl, Nat.le_refl _⟩

theorem Grows.mono (h : d.Grows d' new) (weaker : ∀ path, new path → new' path) :
    d.Grows d' new' :=
  ⟨h.sound, h.folders, h.files, fun there => (h.items there).imp_right fun found =>
    ⟨weaker _ found.1, found.2⟩, h.contents, h.next⟩

theorem Grows.trans (h : d.Grows d' new) (h' : d'.Grows d'' new) : d.Grows d'' new where
  sound := h'.sound
  folders there := h'.folders (h.folders there)
  files := h.files.trans h'.files
  items there := by
    rcases h'.items there with before | ⟨own, fresh⟩
    · exact h.items before
    · exact .inr ⟨own, Nat.le_trans h.next fresh⟩
  contents n := (h'.contents n).trans (h.contents n)
  next := Nat.le_trans h.next h'.next

/-- What a path names is kept, or it is an empty file now and was none. -/
theorem Grows.contentAt? (h : d.Grows d' new) (sound : d.Sound) (path : Path) :
    d'.contentAt? path = d.contentAt? path ∨
      new path ∧ d.contentAt? path = none ∧ d'.contentAt? path = some [] := by
  by_cases there : ∃ n, d.item? path = some (.file n)
  · obtain ⟨n, there⟩ := there
    rw [contentAt?_of_file there, contentAt?_of_file (h.files _ _ there), h.contents]
    exact .inl rfl
  · have absent := contentAt?_of_not_file fun n found => there ⟨n, found⟩
    by_cases made : ∃ n, d'.item? path = some (.file n)
    · obtain ⟨n, made⟩ := made
      obtain ⟨own, fresh⟩ := (h.items made).resolve_left fun found => there ⟨n, found⟩
      rw [contentAt?_of_file made, h.contents, sound.blank fresh]
      exact .inr ⟨own, absent, rfl⟩
    · rw [contentAt?_of_not_file fun n found => made ⟨n, found⟩]
      exact .inl absent.symm

/-- A folder below the root can be made. -/
theorem Sound.makeFolder_grows (sound : d.Sound) (name : String) :
    ∃ d', d.makeFolders [name] = (d', true) ∧ d.Grows d' (fun _ => False) ∧
      d'.item? [name] = some .folder := by
  cases item : d.item? [name] with
  | some found =>
    cases found with
    | folder =>
      exact ⟨d, by simp [makeFolders, makeFoldersFrom, item], sound.grows_refl, item⟩
    | file n => exact absurd (sound.file item).1 (Nat.ne_of_lt Nat.one_lt_two)
  | none =>
    refine ⟨d.withItem [name] .folder d.next,
      by simp [makeFolders, makeFoldersFrom, item, withItem], ?_, item?_withItem_self item⟩
    refine ⟨sound.withFolder item (Nat.le_refl 1), item?_withItem_kept item,
      fun _ _ => item?_withItem_kept item, fun there => ?_, fun _ => rfl, Nat.le_refl _⟩
    rcases item?_withItem_cases item there with ⟨_, ⟨⟩⟩ | found
    exact .inl found

/-- A file in a folder can be opened. -/
theorem Sound.openAppend_grows (sound : d.Sound) (two : path.length = 2)
    (folder : d.item? path.dropLast = some .folder) :
    ∃ d' file, d.openAppend? path = some (d', file) ∧ d.Grows d' (· = path) ∧
      d'.item? path = some (.file file) := by
  cases item : d.item? path with
  | some found =>
    cases found with
    | folder => exact absurd (sound.folder item) (by omega)
    | file n => exact ⟨d, n, by simp [openAppend?, item], sound.grows_refl, item⟩
  | none =>
    refine ⟨d.withItem path (.file d.next) (d.next + 1), d.next,
      by simp [openAppend?, item, folder, withItem], ?_, item?_withItem_self item⟩
    refine ⟨sound.withFile item two folder, item?_withItem_kept item,
      fun _ _ => item?_withItem_kept item, fun there => ?_, fun _ => rfl, Nat.le_succ _⟩
    rcases item?_withItem_cases item there with ⟨same, number⟩ | found
    · cases number
      exact .inr ⟨same, Nat.le_refl _⟩
    · exact .inl found

/-- A folder below the root can be made, and changes no file. -/
theorem Sound.makeFolder (sound : d.Sound) (name : String) :
    ∃ d', d.makeFolders [name] = (d', true) ∧ d'.Sound ∧ d.Keeps d' ∧
      d'.item? [name] = some .folder ∧ d'.files = d.files := by
  obtain ⟨d', made, grows, folder⟩ := sound.makeFolder_grows name
  refine ⟨d', made, grows.sound, grows.files, folder, funext fun path => ?_⟩
  exact (grows.contentAt? sound path).resolve_right fun new => new.1

/-- A file in a folder can be opened.  It is empty if there was none. -/
theorem Sound.openAppend (sound : d.Sound) (two : path.length = 2)
    (folder : d.item? path.dropLast = some .folder) :
    ∃ d' file, d.openAppend? path = some (d', file) ∧ d'.Sound ∧ d.Keeps d' ∧
      d'.item? path = some (.file file) ∧ d'.files = d.files.extend path [] := by
  obtain ⟨d', file, opened, grows, there⟩ := sound.openAppend_grows two folder
  refine ⟨d', file, opened, grows.sound, grows.files, there, funext fun other => ?_⟩
  rcases grows.contentAt? sound other with same | ⟨rfl, missing, blank⟩
  · by_cases own : other = path
    · subst own
      have named : d.files other = some (d'.content file) := same.symm.trans (files_file there)
      rw [Files.extend_nil named]
      exact same
    · rw [Files.extend_other _ own]
      exact same
  · have absent : d.files other = none := missing
    rw [Files.extend_self, absent]
    exact blank

theorem content_append (d : Disk) (file other : Nat) (piece : Piece) :
    (d.append file piece).content other =
      if other = file then d.content file ++ [piece] else d.content other := by
  unfold append content
  rw [Table.get?_insert]
  by_cases same : other = file
  · subst same
    rw [if_pos rfl, if_pos rfl]
    rfl
  · rw [if_neg fun h => same h.symm, if_neg same]

/-- A file that has a number may be written, with a path or without. -/
theorem Sound.append_of_lt (sound : d.Sound) (used : file < d.next) (piece : Piece) :
    (d.append file piece).Sound := by
  refine ⟨sound.folder, sound.file, sound.parent, sound.onePath, fun {n} unused => ?_⟩
  have fresh : n ≠ file := fun same => absurd used (same ▸ Nat.not_lt.mpr unused)
  rw [content_append, if_neg fresh]
  exact sound.blank unused

/-- What is appended to a file stands behind the content of its path. -/
theorem Sound.append (sound : d.Sound) (there : d.item? path = some (.file file))
    (piece : Piece) :
    (d.append file piece).Sound ∧
      (d.append file piece).files = d.files.extend path [piece] := by
  have items : ∀ other, (d.append file piece).item? other = d.item? other := fun _ => rfl
  refine ⟨sound.append_of_lt (sound.file there).2 piece, funext fun other => ?_⟩
  by_cases same : other = path
  · subst same
    rw [Files.extend_self, files_file there, files_file ((items other).trans there),
      content_append, if_pos rfl, Option.getD_some]
  · rw [Files.extend_other _ same]
    refine files_congr (items other) fun n found => ?_
    rw [content_append, if_neg]
    rintro rfl
    exact same (sound.onePath found there)

end Disk

end Fieldbus.Log
