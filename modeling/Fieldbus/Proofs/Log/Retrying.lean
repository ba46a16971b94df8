import Fieldbus.Proofs.Log.Sweeping

/-!
# Compressing again after a failure

A compression that fails leaves the segment alone, and something of it may be in the archive: a
whole member with a part of the segment or all of it, or a member that was cut short
(`PackTrouble.leftover`).  The next one goes on behind that, and the segment is taken away once one
succeeds.

So an archive holds what it held, what the failures have left, and the segment (`compressUntil_ok`).
Whether it can be read depends on what they have left: a member that was cut short makes all of it
unreadable, and any other text of a leftover is there twice.
-/

namespace Fieldbus.Log

/-! ## Reading archives -/

namespace Content

/-- The text of the members of an archive, if there is nothing but whole members.  No members have
no text. -/
def members? (c : Content) : Option String := (c.mapM member?).map String.join

theorem members?_append (c more : Content) :
    members? (c ++ more) = c.members?.bind fun text => more.members?.map (text ++ ·) := by
  unfold members?
  rw [List.mapM_append]
  cases c.mapM member? with
  | none => rfl
  | some texts =>
    cases more.mapM member? with
    | none => rfl
    | some texts' => simp [String.join_append]

/-- An archive with a member last is unpacked to the text of its members. -/
theorem unpack?_concat_packed (c : Content) (text : String) :
    unpack? (c ++ [.packed text]) = c.members?.map (· ++ text) := by
  unfold unpack?
  rw [if_pos (by simp)]
  show members? (c ++ [.packed text]) = c.members?.map (· ++ text)
  rw [members?_append]
  cases c.members? with
  | none => rfl
  | some held => simp [members?, member?]

end Content

/-! ## What a failure leaves -/

/-- What a failed compression of a text leaves in the archive. -/
def PackTrouble.leftover (text : String) : PackTrouble → Content
  | .opening | .full => []
  | .reading read => [.packed (String.ofList (text.toList.take read))]
  | .writing => [.torn text]
  | .removing => [.packed text]

/-- The text of what a failed compression leaves, unless that is cut short. -/
def PackTrouble.left? (text : String) (trouble : PackTrouble) : Option String :=
  (trouble.leftover text).members?

/-- What failures have left, one behind the other. -/
def leftovers (text : String) (troubles : List PackTrouble) : Content :=
  troubles.flatMap (PackTrouble.leftover text)

theorem leftovers_cons (text : String) (trouble : PackTrouble) (rest : List PackTrouble) :
    leftovers text (trouble :: rest) = trouble.leftover text ++ leftovers text rest :=
  List.flatMap_cons

/-- A member that was cut short makes the leftovers unreadable, and nothing else does. -/
theorem members?_leftovers_eq_none_iff {text : String} {troubles : List PackTrouble} :
    (leftovers text troubles).members? = none ↔ .writing ∈ troubles := by
  induction troubles with
  | nil => simp [leftovers, Content.members?]
  | cons trouble rest ih =>
    rw [leftovers_cons, Content.members?_append]
    cases trouble with
    | writing => simp [PackTrouble.leftover, Content.members?, Content.member?]
    | opening | full => simpa [PackTrouble.leftover, Content.members?] using ih
    | reading _ | removing =>
      simpa [PackTrouble.leftover, Content.members?, Content.member?] using ih

/-- The leftovers have no text if none of them has. -/
theorem members?_leftovers_eq_blank_iff {text : String} {troubles : List PackTrouble} :
    (leftovers text troubles).members? = some "" ↔
      ∀ trouble ∈ troubles, trouble.left? text = some "" := by
  induction troubles with
  | nil => simp [leftovers, Content.members?]
  | cons trouble rest ih =>
    rw [leftovers_cons, Content.members?_append, List.forall_mem_cons, ← ih]
    show (trouble.left? text).bind _ = _ ↔ _
    cases trouble.left? text with
    | none => simp
    | some first =>
      cases (leftovers text rest).members? with
      | none => simp
      | some others => simp [String.append_eq_empty_iff]

/-! ## One failure -/

theorem archivePath_eq {path : Path} {name : String} (last : path.getLast? = some name) :
    archivePath path = path.dropLast ++ [Segment.archiveName name] := by
  rw [archivePath, last]
  rfl

/-- An archive stands beside its segment. -/
theorem archivePath_beside {path : Path} (below : path ≠ []) :
    (archivePath path).dropLast = path.dropLast ∧ path ≠ archivePath path := by
  obtain ⟨name, last⟩ := Option.isSome_iff_exists.mp (List.getLast?_isSome.mpr below)
  rw [archivePath_eq last, List.dropLast_concat]
  refine ⟨rfl, fun same => ?_⟩
  have names : some name = some (Segment.archiveName name) := by
    rw [← last, same, List.getLast?_concat]
  have sizes := congrArg String.length (Option.some.inj names)
  rw [Segment.archiveName, String.length_append] at sizes
  simp at sizes

namespace Disk

variable {d d' d'' : Disk} {path : Path} {content : Content}

theorem file_of_contentAt? (there : d.contentAt? path = some content) :
    ∃ n, d.item? path = some (.file n) := by
  rw [contentAt?_eq] at there
  exact file_of_entryAt? (Option.join_eq_some_iff.mp there)

/-- Something is put behind what the archive of a path holds, and everything else is seen as
before. -/
structure Archives (d d' : Disk) (path : Path) (more : Content) : Prop where
  regular : d'.Regular
  others : ∀ other, other ≠ archivePath path → d'.entryAt? other = d.entryAt? other
  held : (d'.contentAt? (archivePath path)).getD [] =
    (d.contentAt? (archivePath path)).getD [] ++ more
  /-- No folder stands where the archive belongs. -/
  free : d'.entryAt? (archivePath path) ≠ some none

theorem Archives.refl (regular : d.Regular) (free : d.entryAt? (archivePath path) ≠ some none) :
    Archives d d path [] :=
  ⟨regular, fun _ _ => rfl, (List.append_nil _).symm, free⟩

theorem Archives.trans {more more' : Content} (h : Archives d d' path more)
    (h' : Archives d' d'' path more') : Archives d d'' path (more ++ more') where
  regular := h'.regular
  others other apart := (h'.others other apart).trans (h.others other apart)
  held := by rw [h'.held, h.held, List.append_assoc]
  free := h'.free

/-- The segment itself is seen as before. -/
theorem Archives.contentAt? {more : Content} (h : Archives d d' path more)
    (there : d.contentAt? path = some content) : d'.contentAt? path = some content := by
  have below : path ≠ [] := by
    rintro rfl
    cases there
  rw [contentAt?_eq, h.others path (archivePath_beside below).2, ← contentAt?_eq, there]

/-- A piece is put behind what the archive of a path holds. -/
theorem Archives.append {archive : Nat} (h : Archives d d' path [])
    (made : d'.item? (archivePath path) = some (.file archive)) (piece : Piece) :
    Archives d (d'.append archive piece) path [piece] := by
  have entries := h.regular.entryAt?_append made piece
  refine h.trans ⟨h.regular.append (h.regular.used made) piece, fun other apart => ?_, ?_, ?_⟩
  · rw [entries, if_neg apart]
  · rw [contentAt?_eq, entries, if_pos rfl, contentAt?_of_file made]
    rfl
  · rw [entries, if_pos rfl]
    intro same
    cases same

section Packing

variable (regular : d.Regular) (there : d.contentAt? path = some content)
  (free : d.entryAt? (archivePath path) ≠ some none)
include regular there free

/-- The archive of a segment can be opened, and holds what it held. -/
theorem Regular.openArchive :
    ∃ grown archive, d.openAppend? (archivePath path) = some (grown, archive) ∧
      grown.item? (archivePath path) = some (.file archive) ∧ Archives d grown path [] := by
  obtain ⟨n, file⟩ := file_of_contentAt? there
  have below : path ≠ [] := by
    rintro rfl
    cases file
  have above : d.item? (archivePath path).dropLast = some .folder := by
    rw [(archivePath_beside below).1]
    exact regular.parent below file
  obtain ⟨grown, archive, opened⟩ :
      ∃ grown archive, d.openAppend? (archivePath path) = some (grown, archive) := by
    unfold openAppend?
    cases item : d.item? (archivePath path) with
    | none => exact ⟨_, _, if_pos above⟩
    | some found =>
      cases found with
      | file n => exact ⟨_, _, rfl⟩
      | folder => exact absurd (by rw [entryAt?, item]; rfl) free
  obtain ⟨regular', made, same, kept⟩ := regular.openAppend opened
  refine ⟨grown, archive, opened, made, regular', kept, ?_, ?_⟩
  · rw [contentAt?_of_file made, same, Option.getD_some, List.append_nil]
  · rw [entryAt?_of_file made]
    intro folder
    cases folder

/-- A failure leaves the segment alone, and its leftover in the archive. -/
theorem Regular.compress_fails (trouble : PackTrouble) :
    ∃ d', Log.compress d path (some trouble) = (d', false) ∧
      Archives d d' path (trouble.leftover content.plain) := by
  obtain ⟨n, file⟩ := file_of_contentAt? there
  have named : d.exists? path = true := by
    rw [exists?, file]
    rfl
  obtain ⟨grown, archive, opened, made, archives⟩ := regular.openArchive there free
  cases trouble with
  | opening => exact ⟨d, by simp [Log.compress, Log.pack], .refl regular free⟩
  | full => exact ⟨grown, by simp [Log.compress, Log.pack, named, opened, there], archives⟩
  | reading read =>
    exact ⟨_, by simp only [Log.compress, Log.pack, named, opened, there]; rfl,
      archives.append made _⟩
  | writing =>
    exact ⟨_, by simp only [Log.compress, Log.pack, named, opened, there]; rfl,
      archives.append made _⟩
  | removing =>
    exact ⟨_, by simp only [Log.compress, Log.pack, named, opened, there]; rfl,
      archives.append made _⟩

/-- A compression that meets no failure puts the segment into the archive and takes it away. -/
theorem Regular.compress_ok :
    ∃ d', Log.compress d path = (d', true) ∧ ∀ other, d'.entryAt? other =
      if other = path then none
      else if other = archivePath path then
        some (some ((d.contentAt? (archivePath path)).getD [] ++ [.packed content.plain]))
      else d.entryAt? other := by
  obtain ⟨n, file⟩ := file_of_contentAt? there
  have named : d.exists? path = true := by
    rw [exists?, file]
    rfl
  obtain ⟨grown, archive, opened, made, archives⟩ := regular.openArchive there free
  have packed : Log.pack d path = (grown.append archive (.packed content.plain), true) := by
    simp [Log.pack, named, opened, there]
  -- The segment is still there to be taken away.
  obtain ⟨m, still⟩ :=
    file_of_contentAt? ((archives.append made (.packed content.plain)).contentAt? there)
  have moved : ∃ d', Log.compress d path = (d', true) := by
    simp [Log.compress, packed, removeFile?, still]
  obtain ⟨d', moved⟩ := moved
  obtain ⟨content', same, -, entries⟩ := regular.compress moved
  cases there.symm.trans same
  exact ⟨d', moved, entries⟩

end Packing

end Disk

/-! ## Trying again -/

/-- Compresses a segment again and again until that succeeds, each time with where the disk fails
it.  The last component says whether it succeeded. -/
def compressUntil (disk : Disk) (path : Path) : List (Option PackTrouble) → Disk × Bool
  | [] => (disk, false)
  | trouble :: rest =>
    match compress disk path trouble with
    | (disk, true) => (disk, true)
    | (disk, false) => compressUntil disk path rest

section Retrying

variable {d : Disk} {path : Path} {content : Content}

/-- Failures leave the segment alone, and their leftovers in the archive. -/
theorem compressUntil_fails (regular : d.Regular) (there : d.contentAt? path = some content)
    (free : d.entryAt? (archivePath path) ≠ some none) (troubles : List PackTrouble)
    (later : List (Option PackTrouble)) :
    ∃ e, compressUntil d path (troubles.map some ++ later) = compressUntil e path later ∧
      d.Archives e path (leftovers content.plain troubles) := by
  induction troubles generalizing d with
  | nil => exact ⟨d, rfl, .refl regular free⟩
  | cons trouble rest ih =>
    obtain ⟨d₁, failed, archives⟩ := regular.compress_fails there free trouble
    obtain ⟨e, same, more⟩ := ih archives.regular (archives.contentAt? there) archives.free
    refine ⟨e, ?_, archives.trans more⟩
    rw [List.map_cons, List.cons_append, compressUntil, failed]
    exact same

/-- Where something is compressed again and again, its archive holds what it held, what the failures
have left, and the text last. -/
theorem compressUntil_ok (regular : d.Regular) (there : d.contentAt? path = some content)
    (free : d.entryAt? (archivePath path) ≠ some none) (troubles : List PackTrouble) :
    ∃ d', compressUntil d path (troubles.map some ++ [none]) = (d', true) ∧
      ∀ other, d'.entryAt? other =
        if other = path then none
        else if other = archivePath path then
          some (some ((d.contentAt? (archivePath path)).getD [] ++
            leftovers content.plain troubles ++ [.packed content.plain]))
        else d.entryAt? other := by
  obtain ⟨e, same, archives⟩ := compressUntil_fails regular there free troubles [none]
  obtain ⟨d', moved, entries⟩ :=
    archives.regular.compress_ok (archives.contentAt? there) archives.free
  refine ⟨d', ?_, fun other => ?_⟩
  · rw [same, compressUntil, moved]
  · rw [entries, archives.held]
    by_cases own : other = archivePath path
    · rw [if_pos own, if_pos own]
    · rw [if_neg own, if_neg own, archives.others other own]

/-- Where a folder stands in place of the archive, nothing is ever compressed. -/
theorem compressUntil_of_folder (folder : d.entryAt? (archivePath path) = some none)
    (tries : List (Option PackTrouble)) : compressUntil d path tries = (d, false) := by
  have closed : d.openAppend? (archivePath path) = none := by
    unfold Disk.entryAt? at folder
    obtain ⟨item, there, same⟩ := Option.map_eq_some_iff.mp folder
    cases item with
    | folder => simp [Disk.openAppend?, there]
    | file n => cases same
  induction tries with
  | nil => rfl
  | cons trouble rest ih =>
    have fails : compress d path trouble = (d, false) := by simp [compress, pack, closed]
    rw [compressUntil, fails]
    exact ih

/-- What is unpacked has nothing between the old text and the new one if and only if nothing with a
text was left. -/
theorem unpack?_leftovers {held : Content} {old text : String} (whole : held.members? = some old)
    (troubles : List PackTrouble) :
    (Content.unpack? (held ++ leftovers text troubles ++ [.packed text]) = some (old ++ text) ↔
        ∀ trouble ∈ troubles, trouble.left? text = some "") ∧
      (Content.unpack? (held ++ leftovers text troubles ++ [.packed text]) = none ↔
        .writing ∈ troubles) := by
  rw [← members?_leftovers_eq_blank_iff, ← members?_leftovers_eq_none_iff,
    Content.unpack?_concat_packed, Content.members?_append, whole]
  cases (leftovers text troubles).members? with
  | none => simp
  | some left => simp [String.append_assoc]

/-- A segment is compressed again and again, with these troubles, and then without trouble. -/
structure Retried (d : Disk) (path : Path) (content : Content) (troubles : List PackTrouble)
    (e d' : Disk) : Prop where
  /-- As long as there is trouble, the compression fails. -/
  fails : compressUntil d path (troubles.map some) = (e, false)
  /-- The segment is still there, unchanged, and so is everything else but the archive. -/
  segment : e.contentAt? path = some content
  others : ∀ other, other ≠ archivePath path → e.entryAt? other = d.entryAt? other
  /-- Without trouble the segment is put into its archive, behind the leftovers. -/
  succeeds : compressUntil d path (troubles.map some ++ [none]) = (d', true)
  archive : d'.contentAt? (archivePath path) =
    some ((d.contentAt? (archivePath path)).getD [] ++ leftovers content.plain troubles ++
      [.packed content.plain])
  gone : d'.entryAt? path = none
  others' : ∀ other, other ≠ path → other ≠ archivePath path → d'.entryAt? other = d.entryAt? other
  /-- The archive reads as before the failures if and only if none of them has left a text. -/
  unchanged : ∀ old, ((d.contentAt? (archivePath path)).getD []).members? = some old →
    (((e.contentAt? (archivePath path)).getD []).members? = some old ↔
      ∀ trouble ∈ troubles, trouble.left? content.plain = some "")
  /-- Just then it reads at last as the old text with the segment behind it. -/
  yields : ∀ old, ((d.contentAt? (archivePath path)).getD []).members? = some old →
    ((d'.contentAt? (archivePath path)).bind Content.unpack? = some (old ++ content.plain) ↔
      ∀ trouble ∈ troubles, trouble.left? content.plain = some "")
  /-- After a member that was cut short nothing can be read any more. -/
  unreadable : ∀ old, ((d.contentAt? (archivePath path)).getD []).members? = some old →
    ((d'.contentAt? (archivePath path)).bind Content.unpack? = none ↔ .writing ∈ troubles)

/-- A failed compression leaves the segment alone, and the one that succeeds at last moves it to the
archive.  Nothing is lost, and nothing is there twice, if and only if the failures have left no text
in the archive. -/
theorem compress_retried (regular : d.Regular) (there : d.contentAt? path = some content)
    (troubles : List PackTrouble) :
    (d.entryAt? (archivePath path) = some none → ∀ tries, compressUntil d path tries = (d, false)) ∧
      (d.entryAt? (archivePath path) ≠ some none →
        ∃ e d', Retried d path content troubles e d') := by
  refine ⟨compressUntil_of_folder, fun free => ?_⟩
  obtain ⟨e, same, archives⟩ := compressUntil_fails regular there free troubles []
  rw [List.append_nil] at same
  obtain ⟨d', succeeds, entries⟩ := compressUntil_ok regular there free troubles
  have apart : archivePath path ≠ path := by
    have below : path ≠ [] := by
      rintro rfl
      cases there
    exact (archivePath_beside below).2.symm
  have archive : d'.contentAt? (archivePath path) =
      some ((d.contentAt? (archivePath path)).getD [] ++ leftovers content.plain troubles ++
        [.packed content.plain]) := by
    rw [Disk.contentAt?_eq, entries, if_neg apart, if_pos rfl, Option.join_some]
  refine ⟨e, d', same, archives.contentAt? there, archives.others, succeeds, archive, ?_, ?_, ?_, ?_,
    ?_⟩
  · rw [entries, if_pos rfl]
  · intro other other_path other_archive
    rw [entries, if_neg other_path, if_neg other_archive]
  · intro old whole
    rw [archives.held, Content.members?_append, whole, ← members?_leftovers_eq_blank_iff]
    cases (leftovers content.plain troubles).members? <;> simp
  · intro old whole
    rw [archive]
    exact (unpack?_leftovers whole troubles).1
  · intro old whole
    rw [archive]
    exact (unpack?_leftovers whole troubles).2

end Retrying

/-- A segment that has grown again after it was compressed. -/
def grownAgain : Disk :=
  let path : Path := ["1", "19700101_ch1.log"]
  (compress (({} : Disk).put path "a\n") path).1.put path "b\n"

theorem grownAgain_regular : grownAgain.Regular := by
  obtain ⟨_, -, regular, -⟩ := (Disk.empty_regular.put ["1", "19700101_ch1.log"] "a\n").compress
    (Prod.ext rfl (by decide +kernel) : compress _ ["1", "19700101_ch1.log"] =
      ((compress _ ["1", "19700101_ch1.log"]).1, true))
  exact regular.put ["1", "19700101_ch1.log"] "b\n"

/-- The disk is full at first, then the segment cannot be taken away, and then there is no more
trouble.  The archive ends with the segment twice. -/
theorem grownAgain_retried :
    grownAgain.contentAt? ["1", "19700101_ch1.log"] = some [.text "b\n"] ∧
      grownAgain.entryAt? ["1", "19700101_ch1.log.gz"] ≠ some none ∧
      ∃ e d', Retried grownAgain ["1", "19700101_ch1.log"] [.text "b\n"] [.full, .removing] e d' ∧
        (d'.contentAt? ["1", "19700101_ch1.log.gz"]).bind Content.unpack? = some "a\nb\nb\n" := by
  have there : grownAgain.contentAt? ["1", "19700101_ch1.log"] = some [.text "b\n"] := by
    decide +kernel
  have free : grownAgain.entryAt? ["1", "19700101_ch1.log.gz"] ≠ some none := by decide +kernel
  obtain ⟨e, d', retried⟩ :=
    (compress_retried grownAgain_regular there [.full, .removing]).2 free
  refine ⟨there, free, e, d', retried, ?_⟩
  have archive := retried.archive
  change d'.contentAt? ["1", "19700101_ch1.log.gz"] = _ at archive
  rw [archive]
  decide +kernel

/-- The disk fills up while the member is written.  The next compression succeeds and takes the
segment away, and its line cannot be read any more, nor can what was in the archive before. -/
theorem cut_archive_lost :
    let path : Path := ["1", "19700101_ch1.log"]
    let (failed, ok) := compress grownAgain path (some .writing)
    let (retried, ok') := compress failed path
    ok = false ∧ ok' = true ∧
      (grownAgain.contentAt? (archivePath path)).bind Content.unpack? = some "a\n" ∧
      failed.contentAt? path = some [.text "b\n"] ∧
      (failed.contentAt? (archivePath path)).bind Content.unpack? = none ∧
      retried.contentAt? path = none ∧
      (retried.contentAt? (archivePath path)).bind Content.unpack? = none := by
  decide +kernel

end Fieldbus.Log
