import Fieldbus.Proofs.Log.Archives
import Fieldbus.Proofs.Log.Deeds
import Fieldbus.Proofs.Log.Regular

/-!
# What a sweep does to a folder

A sweep that meets no failure deletes the names that have expired, moves the segments that are to be
packed to their archives, and touches nothing else (`Sweep.Swept`).  It goes over the names of the
folder as they are listed, in any order, while it changes the folder.  That makes no difference,
since the archives that it makes are neither expired nor packed again
(`Sweep.not_acts_archiveName`).

`Sweep.Progress` is what holds on the way: what has been listed so far is done, and everything else
is as it was.
-/

namespace Fieldbus.Log

/-! ## Texts of archives -/

namespace Content

theorem join_of_blank {texts : List String} (blank : ∀ text ∈ texts, text = "") :
    String.join texts = "" := by
  induction texts with
  | nil => rfl
  | cons text rest ih =>
    rw [blank text List.mem_cons_self]
    simpa using ih fun other inside => blank other (List.mem_cons_of_mem _ inside)

/-- What is whole and no member is an empty text. -/
theorem blank_of_member? {piece : Piece} {text : String} (read : member? piece = some text)
    (unpacked : ∀ text, piece ≠ .packed text) : text = "" := by
  cases piece with
  | packed text => exact absurd rfl (unpacked text)
  | torn text => cases read
  | text s =>
    unfold member? at read
    split at read
    next packed => cases packed
    next =>
      cases read
      rfl
    next => cases read

/-- The texts of whole members are read one behind the other, also if there are none. -/
theorem unpack?_getD {c : Content} (whole : ∀ piece ∈ c, (member? piece).isSome) :
    c.unpack?.getD "" = String.join (c.filterMap member?) := by
  have members : c.mapM member? = some (c.filterMap member?) := by
    induction c with
    | nil => rfl
    | cons piece rest ih =>
      obtain ⟨text, read⟩ := Option.isSome_iff_exists.mp (whole piece List.mem_cons_self)
      rw [List.mapM_cons, read, ih fun piece inside => whole piece (List.mem_cons_of_mem _ inside),
        List.filterMap_cons_some read]
      rfl
  unfold unpack?
  split
  next =>
    rw [members]
    rfl
  next none =>
    refine (join_of_blank fun text inside => ?_).symm
    obtain ⟨piece, here, read⟩ := List.mem_filterMap.mp inside
    refine blank_of_member? read fun member same => none ?_
    exact List.any_eq_true.mpr ⟨piece, here, by rw [same]⟩

end Content

theorem Disk.archiveText_eq {d : Disk} {path : Path}
    (whole : ∀ piece ∈ (d.contentAt? (archivePath path)).getD [], (Content.member? piece).isSome) :
    d.archiveText path =
      String.join (((d.contentAt? (archivePath path)).getD []).filterMap Content.member?) := by
  unfold archiveText
  cases there : d.contentAt? (archivePath path) with
  | none => rfl
  | some content =>
    rw [there] at whole
    exact Content.unpack?_getD whole

/-! ## Names -/

namespace Segment

/-- The archive of a segment has the day of the segment. -/
theorem parseName?_archiveName {channel : UInt16} {name : String} {day : Date}
    (parsed : parseName? channel name = some (day, false)) :
    parseName? channel (archiveName name) = some (day, true) := by
  have packed :
      archiveExtension.isSuffixOf? (name.toList ++ archiveExtension) = some name.toList := by
    rw [List.isSuffixOf?_eq_some_iff_append_eq]
  have chars : (archiveName name).toList = name.toList ++ archiveExtension := by
    rw [archiveName, String.toList_append]
    rfl
  rw [parseName?, chars, parseChars?, packed]
  rw [parseName?, parseChars?] at parsed
  cases suffix : archiveExtension.isSuffixOf? name.toList with
  | some plain =>
    rw [suffix] at parsed
    obtain ⟨stem, -, dated⟩ := Option.bind_eq_some_iff.mp parsed
    obtain ⟨found, -, same⟩ := Option.map_eq_some_iff.mp dated
    cases same
  | none =>
    rw [suffix] at parsed
    obtain ⟨stem, ends, dated⟩ := Option.bind_eq_some_iff.mp parsed
    obtain ⟨found, read, same⟩ := Option.map_eq_some_iff.mp dated
    cases same
    exact Option.bind_eq_some_iff.mpr ⟨stem, ends, Option.map_eq_some_iff.mpr ⟨_, read, rfl⟩⟩

theorem archiveName_inj {name name' : String} (same : archiveName name = archiveName name') :
    name = name' := by
  have chars := congrArg String.toList same
  rw [archiveName, archiveName, String.toList_append, String.toList_append] at chars
  exact String.toList_injective (List.append_cancel_right chars)

end Segment

namespace Sweep

variable {sw : Sweep} {name name' : String}

theorem path_inj (same : sw.path name = sw.path name') : name = name' :=
  (List.cons.inj (List.append_cancel_left same)).1

theorem archivePath_path (sw : Sweep) (name : String) :
    archivePath (sw.path name) = sw.path (Segment.archiveName name) := by
  simp [archivePath, path]

/-- The name is of a segment or an archive of the channel, other than the active path, whose day is
more than the retention days ago. -/
def Expires (sw : Sweep) (name : String) : Prop :=
  ∃ found ∈ Segment.parseName? sw.channel name, sw.active ≠ some (sw.path name) ∧
    (sw.policy.retentionDays : Int) < sw.today.ordinal - found.1.ordinal

/-- The name is of a segment of the channel that is left, other than the active path, whose day is
before today and at least the compression age ago, if there is one. -/
def Packs (sw : Sweep) (name : String) : Prop :=
  ¬ sw.Expires name ∧ ∃ found ∈ Segment.parseName? sw.channel name,
    found.2 = false ∧ sw.active ≠ some (sw.path name) ∧ found.1.ordinal < sw.today.ordinal ∧
      ∃ age ∈ sw.policy.compressAfterDays, (age : Int) ≤ sw.today.ordinal - found.1.ordinal

theorem verdict_eq_delete_iff : sw.verdict name = .delete ↔ sw.Expires name := by
  unfold verdict sweepingOf Expires
  cases Segment.parseName? sw.channel name with
  | none => simp
  | some found =>
    by_cases known : sw.active = some (sw.path name)
    · simp [known]
    · simp only [known, if_false, Option.mem_def, Option.some.injEq, exists_eq_left',
        not_false_eq_true, ne_eq, true_and]
      exact LogPolicy.sweeping_eq_delete_iff

theorem verdict_eq_compress_iff : sw.verdict name = .compress ↔ sw.Packs name := by
  unfold Packs
  rw [← verdict_eq_delete_iff]
  unfold verdict sweepingOf
  cases Segment.parseName? sw.channel name with
  | none => simp
  | some found =>
    obtain ⟨day, archived⟩ := found
    by_cases known : sw.active = some (sw.path name)
    · simp [known]
    · simp only [known, if_false, Option.mem_def, Option.some.injEq, exists_eq_left',
        not_false_eq_true, ne_eq, true_and, LogPolicy.sweeping_eq_delete_iff]
      exact LogPolicy.sweeping_eq_compress_iff

instance : Decidable (sw.Expires name) := decidable_of_iff _ verdict_eq_delete_iff

instance : Decidable (sw.Packs name) := decidable_of_iff _ verdict_eq_compress_iff

/-- An archive is not packed. -/
theorem not_packs_archiveName {day : Date}
    (parsed : Segment.parseName? sw.channel name = some (day, false)) :
    ¬ sw.Packs (Segment.archiveName name) := by
  rintro ⟨-, found, read, plain, -⟩
  cases (Segment.parseName?_archiveName parsed).symm.trans read
  cases plain

/-- No segment is the archive of one. -/
theorem ne_archiveName_of_packs {day : Date}
    (parsed : Segment.parseName? sw.channel name = some (day, false)) (packs : sw.Packs name') :
    name ≠ Segment.archiveName name' := by
  rintro rfl
  obtain ⟨-, ⟨day', archived⟩, read, rfl, -⟩ := packs
  cases (Segment.parseName?_archiveName read).symm.trans parsed

/-- An archive that is made is left alone. -/
theorem not_acts_archiveName (packs : sw.Packs name) :
    ¬ sw.Expires (Segment.archiveName name) ∧ ¬ sw.Packs (Segment.archiveName name) := by
  obtain ⟨young, ⟨day, archived⟩, parsed, rfl, elsewhere, -⟩ := packs
  refine ⟨?_, not_packs_archiveName parsed⟩
  rintro ⟨found, read, -, old⟩
  cases (Segment.parseName?_archiveName parsed).symm.trans read
  exact young ⟨_, parsed, elsewhere, old⟩

/-! ## Listings -/

/-- The sweep of a folder whose names are listed in some order. -/
def run (sw : Sweep) (d : Disk) (listed : List String) : Disk × Option SweepReport :=
  match d.item? (channelFolder sw.channel) with
  | none => (d, some {})
  | some (.file _) => (d, none)
  | some .folder =>
    sweepNames sw.channel sw.policy sw.today sw.active (channelFolder sw.channel) d {} listed

theorem run_namesIn (sw : Sweep) (d : Disk) :
    sw.run d (d.namesIn (channelFolder sw.channel)) =
      sweep d sw.channel sw.policy sw.today sw.active := rfl

/-- The names in the folder that the sweep deletes. -/
def expired (sw : Sweep) (d : Disk) : List String :=
  (d.namesIn (channelFolder sw.channel)).filter fun name => sw.Expires name

/-- The names in the folder that the sweep moves to their archives. -/
def packed (sw : Sweep) (d : Disk) : List String :=
  (d.namesIn (channelFolder sw.channel)).filter fun name => sw.Packs name

variable {d e e' : Disk} {seen : List String} {report report' : SweepReport}

theorem mem_expired : name ∈ sw.expired d ↔ d.entryAt? (sw.path name) ≠ none ∧ sw.Expires name := by
  rw [expired, List.mem_filter, Disk.mem_namesIn, decide_eq_true_iff]
  rfl

theorem mem_packed : name ∈ sw.packed d ↔ d.entryAt? (sw.path name) ≠ none ∧ sw.Packs name := by
  rw [packed, List.mem_filter, Disk.mem_namesIn, decide_eq_true_iff]
  rfl

/-- What a sweep acts on is no archive that it makes. -/
theorem ne_archiveName_of_acted (acted : name ∈ sw.expired d ∨ name ∈ sw.packed d)
    (packs : sw.Packs name') : name ≠ Segment.archiveName name' := by
  rintro rfl
  have aside := not_acts_archiveName packs
  exact acted.elim (fun expires => aside.1 (mem_expired.mp expires).2) fun packs =>
    aside.2 (mem_packed.mp packs).2

theorem seen_of_ne (inside : name ∈ seen ++ [name']) (apart : name ≠ name') : name ∈ seen :=
  (List.mem_append.mp inside).resolve_right fun here => apart (List.mem_singleton.mp here)

/-- One more name in the folder is seen. -/
theorem countP_mem_concat (fresh : name ∉ seen) (names : List String) :
    names.countP (· ∈ seen ++ [name]) = names.countP (· ∈ seen) + names.count name := by
  induction names with
  | nil => rfl
  | cons first rest ih =>
    rw [List.countP_cons, List.countP_cons, List.count_cons, ih]
    by_cases same : first = name
    · subst same
      simp [fresh]
      omega
    · simp [same]
      omega

/-! ## On the way -/

/-- The names that are seen are dealt with, and everything else is as it was. -/
structure Progress (sw : Sweep) (d : Disk) (seen : List String) (e : Disk) (report : SweepReport) :
    Prop where
  distinct : (d.namesIn (channelFolder sw.channel)).Nodup
  regular : e.Regular
  gone : ∀ name ∈ seen, name ∈ sw.expired d ∨ name ∈ sw.packed d →
    e.entryAt? (sw.path name) = none
  archived : ∀ name ∈ seen, name ∈ sw.packed d → ∃ content,
    d.contentAt? (sw.path name) = some content ∧
    e.entryAt? (sw.path (Segment.archiveName name)) =
      some (some ((d.contentAt? (sw.path (Segment.archiveName name))).getD [] ++
        [.packed content.plain]))
  kept : ∀ path, (∀ name ∈ seen, name ∈ sw.expired d ∨ name ∈ sw.packed d → path ≠ sw.path name) →
    (∀ name ∈ seen, name ∈ sw.packed d → path ≠ sw.path (Segment.archiveName name)) →
    e.entryAt? path = d.entryAt? path
  report : report = ⟨(sw.expired d).countP (· ∈ seen), (sw.packed d).countP (· ∈ seen)⟩

namespace Progress

theorem start (sw : Sweep) (regular : d.Regular) : Progress sw d [] d {} := by
  refine ⟨regular.nodup_namesIn _, regular, nofun, nofun, fun _ _ _ => rfl, ?_⟩
  simp

/-- A name that is still there and asks for something has not been seen. -/
theorem untouched (h : Progress sw d seen e report) (acts : sw.Expires name ∨ sw.Packs name)
    (there : e.entryAt? (sw.path name) ≠ none) :
    e.entryAt? (sw.path name) = d.entryAt? (sw.path name) ∧
      (name ∈ sw.expired d ∨ name ∈ sw.packed d) ∧ name ∉ seen := by
  have same : e.entryAt? (sw.path name) = d.entryAt? (sw.path name) := by
    refine h.kept _ (fun other inside acted same => ?_) fun other inside packs same => ?_
    · cases path_inj same
      exact there (h.gone _ inside acted)
    · cases path_inj same
      have aside := not_acts_archiveName (mem_packed.mp packs).2
      exact acts.elim aside.1 aside.2
  have acted : name ∈ sw.expired d ∨ name ∈ sw.packed d := by
    rw [same] at there
    exact acts.imp (fun expires => mem_expired.mpr ⟨there, expires⟩) fun packs =>
      mem_packed.mpr ⟨there, packs⟩
  exact ⟨same, acted, fun inside => there (h.gone _ inside acted)⟩

/-- A name that asks for nothing. -/
theorem keep (h : Progress sw d seen e report) (expires : ¬ sw.Expires name)
    (packs : ¬ sw.Packs name) : Progress sw d (seen ++ [name]) e report := by
  have unexpired : name ∉ sw.expired d := fun member => expires (mem_expired.mp member).2
  have unpacked : name ∉ sw.packed d := fun member => packs (mem_packed.mp member).2
  have before {other : String} (inside : other ∈ seen ++ [name])
      (acted : other ∈ sw.expired d ∨ other ∈ sw.packed d) : other ∈ seen := by
    refine seen_of_ne inside ?_
    rintro rfl
    exact acted.elim unexpired unpacked
  have count {names : List String} (absent : name ∉ names) :
      names.countP (· ∈ seen ++ [name]) = names.countP (· ∈ seen) := by
    refine List.countP_congr fun other member => ?_
    have apart : other ≠ name := fun same => absent (same ▸ member)
    simp [apart]
  refine ⟨h.distinct, h.regular, fun other inside acted => h.gone other (before inside acted) acted,
    fun other inside packs => h.archived other (before inside (.inr packs)) packs,
    fun path apart apart' => ?_, ?_⟩
  · exact h.kept path (fun other inside => apart other (List.mem_append_left _ inside))
      fun other inside => apart' other (List.mem_append_left _ inside)
  · rw [count unexpired, count unpacked]
    exact h.report

/-- A name that has expired. -/
theorem delete (h : Progress sw d seen e report) (expires : sw.Expires name)
    (removed : e.removeFile? (sw.path name) = some e') :
    Progress sw d (seen ++ [name]) e' { report with deleted := report.deleted + 1 } := by
  obtain ⟨regular, ⟨n, there⟩, entries⟩ := h.regular.removeFile removed
  obtain ⟨-, acted, fresh⟩ := h.untouched (.inl expires)
    (by rw [Disk.entryAt?_of_file there]; exact Option.some_ne_none _)
  have unpacked : name ∉ sw.packed d := fun member => (mem_packed.mp member).2.1 expires
  have member : name ∈ sw.expired d := acted.resolve_right unpacked
  refine ⟨h.distinct, regular, fun other inside acted => ?_, fun other inside packs => ?_,
    fun path apart apart' => ?_, ?_⟩
  · rw [entries]
    split
    next => rfl
    next apart => exact h.gone other (seen_of_ne inside fun same => apart (same ▸ rfl)) acted
  · have before := seen_of_ne inside fun same => unpacked (same ▸ packs)
    have apart := ne_archiveName_of_acted (.inl member) (mem_packed.mp packs).2
    rw [entries, if_neg fun same => apart (path_inj same).symm]
    exact h.archived other before packs
  · rw [entries, if_neg (apart name (by simp) (.inl member))]
    exact h.kept path (fun other inside => apart other (List.mem_append_left _ inside))
      fun other inside => apart' other (List.mem_append_left _ inside)
  · have one := List.count_eq_one_of_mem (h.distinct.filter _) member
    rw [countP_mem_concat fresh, countP_mem_concat fresh, h.report, List.count_eq_zero.mpr unpacked,
      Nat.add_zero]
    exact congrArg (SweepReport.mk · _) (congrArg _ one.symm)

/-- The archive of a segment that has not been seen is as it was. -/
theorem archive_kept (h : Progress sw d seen e report) (packs : sw.Packs name)
    (fresh : name ∉ seen) :
    e.contentAt? (sw.path (Segment.archiveName name)) =
      d.contentAt? (sw.path (Segment.archiveName name)) := by
  rw [Disk.contentAt?_eq, Disk.contentAt?_eq, h.kept]
  · exact fun other _ acted same => ne_archiveName_of_acted acted packs (path_inj same).symm
  · intro other inside _ same
    cases Segment.archiveName_inj (path_inj same)
    exact fresh inside

/-- A segment that is to be packed. -/
theorem compress (h : Progress sw d seen e report) (packs : sw.Packs name)
    (moved : Log.compress e (sw.path name) = (e', true)) :
    Progress sw d (seen ++ [name]) e' { report with compressed := report.compressed + 1 } := by
  obtain ⟨content, source, regular, entries⟩ := h.regular.compress moved
  rw [archivePath_path] at entries
  have there : e.entryAt? (sw.path name) ≠ none := by
    intro none
    rw [Disk.contentAt?_eq, none] at source
    cases source
  obtain ⟨same, acted, fresh⟩ := h.untouched (.inr packs) there
  have unexpired : name ∉ sw.expired d := fun member => packs.1 (mem_expired.mp member).2
  have member : name ∈ sw.packed d := acted.resolve_left unexpired
  have before := h.archive_kept packs fresh
  refine ⟨h.distinct, regular, fun other inside acted => ?_, fun other inside packs' => ?_,
    fun path apart apart' => ?_, ?_⟩
  · rw [entries]
    split
    next => rfl
    next apart =>
      rw [if_neg fun same => ne_archiveName_of_acted acted packs (path_inj same)]
      exact h.gone other (seen_of_ne inside fun same => apart (same ▸ rfl)) acted
  · have apart := ne_archiveName_of_acted (.inr member) (mem_packed.mp packs').2
    rw [entries, if_neg fun same => apart (path_inj same).symm]
    rcases List.mem_append.mp inside with earlier | here
    · rw [if_neg]
      · exact h.archived other earlier packs'
      · intro same
        cases Segment.archiveName_inj (path_inj same)
        exact fresh earlier
    · cases List.mem_singleton.mp here
      rw [if_pos rfl, before]
      refine ⟨content, ?_, rfl⟩
      rw [Disk.contentAt?_eq, ← same, ← Disk.contentAt?_eq, source]
  · rw [entries, if_neg (apart name (by simp) (.inr member)), if_neg (apart' name (by simp) member)]
    exact h.kept path (fun other inside => apart other (List.mem_append_left _ inside))
      fun other inside => apart' other (List.mem_append_left _ inside)
  · have one := List.count_eq_one_of_mem (h.distinct.filter _) member
    rw [countP_mem_concat fresh, countP_mem_concat fresh, h.report,
      List.count_eq_zero.mpr unexpired, Nat.add_zero]
    exact congrArg (SweepReport.mk _) (congrArg _ one.symm)

/-- A sweep goes over names, and does with each what it asks for. -/
theorem names (h : Progress sw d seen e report) (listed : List String)
    (done : sweepNames sw.channel sw.policy sw.today sw.active (channelFolder sw.channel) e report
      listed = (e', some report')) : Progress sw d (seen ++ listed) e' report' := by
  induction listed generalizing seen e report with
  | nil =>
    cases done
    rwa [List.append_nil]
  | cons name rest ih =>
    have asked : sweepingOf sw.channel sw.policy sw.today sw.active
        (channelFolder sw.channel ++ [name]) name = sw.verdict name := rfl
    unfold sweepNames at done
    dsimp only at done
    rw [asked] at done
    rw [List.append_cons]
    cases verdict : sw.verdict name with
    | keep =>
      rw [verdict] at done
      have unexpired : ¬ sw.Expires name := by simp [← verdict_eq_delete_iff, verdict]
      have unpacked : ¬ sw.Packs name := by simp [← verdict_eq_compress_iff, verdict]
      exact ih (h.keep unexpired unpacked) done
    | delete =>
      rw [verdict] at done
      dsimp only at done
      split at done
      next => cases done
      next removed => exact ih (h.delete (verdict_eq_delete_iff.mp verdict) removed) done
    | compress =>
      rw [verdict] at done
      dsimp only at done
      split at done
      next => cases done
      next moved => exact ih (h.compress (verdict_eq_compress_iff.mp verdict) moved) done

end Progress

/-! ## The whole sweep -/

/-- What a sweep has done that met no failure. -/
structure Swept (sw : Sweep) (d d' : Disk) (report : SweepReport) : Prop where
  deleted : ∀ name ∈ sw.expired d, d'.entryAt? (sw.path name) = none
  /-- What was in a segment is one more member of its archive. -/
  moved : ∀ name ∈ sw.packed d, d'.entryAt? (sw.path name) = none ∧
    ∃ content, d.contentAt? (sw.path name) = some content ∧
      d'.contentAt? (archivePath (sw.path name)) =
        some ((d.contentAt? (archivePath (sw.path name))).getD [] ++ [.packed content.plain])
  /-- Nothing else is touched. -/
  kept : ∀ path, (∀ name ∈ sw.expired d, path ≠ sw.path name) →
    (∀ name ∈ sw.packed d, path ≠ sw.path name ∧ path ≠ archivePath (sw.path name)) →
    d'.entryAt? path = d.entryAt? path
  /-- No text of a segment is lost that has not expired, unless its archive is damaged. -/
  readable : ∀ name, (∃ day, Segment.parseName? sw.channel name = some (day, false)) →
    name ∉ sw.expired d → Segment.archiveName name ∉ sw.expired d →
    (∀ piece ∈ (d.contentAt? (archivePath (sw.path name))).getD [],
      (Content.member? piece).isSome) →
    d'.archiveText (sw.path name) ++ d'.plainText (sw.path name) =
      d.archiveText (sw.path name) ++ d.plainText (sw.path name)
  counted : report = ⟨(sw.expired d).length, (sw.packed d).length⟩
  /-- A second sweep does nothing, in whatever order the names are listed then. -/
  again : ∀ listed, (∀ name ∈ listed, name ∈ d'.namesIn (channelFolder sw.channel)) →
    sw.run d' listed = (d', some {})
  settled : sweep d' sw.channel sw.policy sw.today sw.active = (d', some {})

theorem sweepNames_of_keep {listed : List String} (keep : ∀ name ∈ listed, sw.verdict name = .keep)
    (d : Disk) (report : SweepReport) :
    sweepNames sw.channel sw.policy sw.today sw.active (channelFolder sw.channel) d report listed =
      (d, some report) := by
  induction listed with
  | nil => rfl
  | cons name rest ih =>
    have asked : sweepingOf sw.channel sw.policy sw.today sw.active
        (channelFolder sw.channel ++ [name]) name = .keep := keep name List.mem_cons_self
    unfold sweepNames
    dsimp only
    rw [asked]
    exact ih fun name inside => keep name (List.mem_cons_of_mem _ inside)

namespace Progress

section

variable (h : Progress sw d seen e report)
  (complete : ∀ name ∈ d.namesIn (channelFolder sw.channel), name ∈ seen)
include h complete

/-- What is still in the folder asks for nothing once all names are seen. -/
theorem quiet (there : name ∈ e.namesIn (channelFolder sw.channel)) : sw.verdict name = .keep := by
  have rests : ¬ (sw.Expires name ∨ sw.Packs name) := by
    intro acts
    obtain ⟨-, acted, fresh⟩ := h.untouched acts (Disk.mem_namesIn.mp there)
    exact fresh (complete name (acted.elim List.mem_of_mem_filter List.mem_of_mem_filter))
  cases verdict : sw.verdict name with
  | keep => rfl
  | delete => exact absurd (.inl (verdict_eq_delete_iff.mp verdict)) rests
  | compress => exact absurd (.inr (verdict_eq_compress_iff.mp verdict)) rests

/-- A second sweep does nothing. -/
theorem again (folder : ∀ n, d.item? (channelFolder sw.channel) ≠ some (.file n))
    {listed : List String} (inside : ∀ name ∈ listed, name ∈ e.namesIn (channelFolder sw.channel)) :
    sw.run e listed = (e, some {}) := by
  unfold run
  split
  next => rfl
  next n there =>
    have below (name : String) : channelFolder sw.channel ≠ sw.path name := by
      simp [channelFolder, path]
    have same : e.entryAt? (channelFolder sw.channel) = d.entryAt? (channelFolder sw.channel) :=
      h.kept _ (fun name _ _ => below name) fun name _ _ => below _
    rw [Disk.entryAt?_of_file there, eq_comm] at same
    obtain ⟨n, before⟩ := Disk.file_of_entryAt? same
    exact absurd before (folder n)
  next => exact sweepNames_of_keep (fun name member => h.quiet complete (inside name member)) e {}

theorem moved (member : name ∈ sw.packed d) :
    e.entryAt? (sw.path name) = none ∧ ∃ content, d.contentAt? (sw.path name) = some content ∧
      e.contentAt? (archivePath (sw.path name)) =
        some ((d.contentAt? (archivePath (sw.path name))).getD [] ++ [.packed content.plain]) := by
  have finished := complete name (List.mem_of_mem_filter member)
  obtain ⟨content, source, archived⟩ := h.archived name finished member
  refine ⟨h.gone name finished (.inr member), content, source, ?_⟩
  rw [archivePath_path, Disk.contentAt?_eq, archived]
  rfl

/-- The text of a segment stands in its archive and in itself. -/
theorem readable {day : Date} (parsed : Segment.parseName? sw.channel name = some (day, false))
    (fresh : name ∉ sw.expired d) (fresh' : Segment.archiveName name ∉ sw.expired d)
    (whole : ∀ piece ∈ (d.contentAt? (archivePath (sw.path name))).getD [],
      (Content.member? piece).isSome) :
    e.archiveText (sw.path name) ++ e.plainText (sw.path name) =
      d.archiveText (sw.path name) ++ d.plainText (sw.path name) := by
  by_cases member : name ∈ sw.packed d
  · obtain ⟨gone, content, source, archive⟩ := h.moved complete member
    have plain : e.plainText (sw.path name) = "" :=
      Disk.plainText_of_none (by rw [Disk.contentAt?_eq, gone]; rfl)
    have before : d.plainText (sw.path name) = content.plain := by
      rw [Disk.plainText, source]
      rfl
    have whole' : ∀ piece ∈ (e.contentAt? (archivePath (sw.path name))).getD [],
        (Content.member? piece).isSome := by
      rw [archive, Option.getD_some]
      exact List.forall_mem_append.mpr ⟨whole, by simp [Content.member?]⟩
    rw [Disk.archiveText_eq whole, Disk.archiveText_eq whole', archive, plain, before,
      Option.getD_some, List.filterMap_append, String.join_append]
    simp [Content.member?]
  · -- Nothing is done to the segment, nor to its archive.
    have stays : e.entryAt? (sw.path name) = d.entryAt? (sw.path name) := by
      refine h.kept _ (fun other _ acted same => ?_) fun other _ packs same => ?_
      · cases path_inj same
        exact acted.elim fresh member
      · exact ne_archiveName_of_packs parsed (mem_packed.mp packs).2 (path_inj same)
    have stays' :
        e.entryAt? (archivePath (sw.path name)) = d.entryAt? (archivePath (sw.path name)) := by
      rw [archivePath_path]
      refine h.kept _ (fun other _ acted same => ?_) fun other _ packs same => ?_
      · cases path_inj same
        exact acted.elim fresh' fun packs =>
          not_packs_archiveName parsed (mem_packed.mp packs).2
      · cases Segment.archiveName_inj (path_inj same)
        exact member packs
    rw [Disk.plainText_congr (d := d), Disk.archiveText_congr (d := d)]
    · rw [Disk.contentAt?_eq, stays', ← Disk.contentAt?_eq]
    · rw [Disk.contentAt?_eq, stays, ← Disk.contentAt?_eq]

theorem swept (folder : ∀ n, d.item? (channelFolder sw.channel) ≠ some (.file n)) :
    Swept sw d e report where
  deleted name member :=
    h.gone name (complete name (List.mem_of_mem_filter member)) (.inl member)
  moved name member := h.moved complete member
  kept path apart apart' := by
    refine h.kept path (fun name _ acted => ?_) fun name _ packs => ?_
    · exact acted.elim (apart name) fun packs => (apart' name packs).1
    · rw [← archivePath_path]
      exact (apart' name packs).2
  readable name parsed fresh fresh' whole := by
    obtain ⟨day, parsed⟩ := parsed
    exact h.readable complete parsed fresh fresh' whole
  counted := by
    have all (names : List String) (within : ∀ name ∈ names,
        name ∈ d.namesIn (channelFolder sw.channel)) : names.countP (· ∈ seen) = names.length :=
      List.countP_eq_length.mpr fun name member =>
        decide_eq_true (complete name (within name member))
    rw [h.report, all (sw.expired d) fun _ => List.mem_of_mem_filter,
      all (sw.packed d) fun _ => List.mem_of_mem_filter]
  again _ := h.again complete folder
  settled := by
    rw [← run_namesIn]
    exact h.again complete folder fun _ member => member

end

end Progress

/-- A sweep that meets no failure deletes what has expired, packs what is to be packed, and touches
nothing else, in whatever order the names of the folder are listed, and also if other names are
listed with them.  A second sweep finds nothing to do. -/
theorem swept_of_run {listed : List String} (regular : d.Regular)
    (complete : ∀ name ∈ d.namesIn (channelFolder sw.channel), name ∈ listed)
    (done : sw.run d listed = (e, some report)) : Swept sw d e report := by
  have start := Progress.start sw regular
  unfold run at done
  split at done
  next missing =>
    cases done
    refine start.swept (fun name member => ?_) fun n there => by cases missing.symm.trans there
    -- Nothing is in a folder that is not there.
    have there := Disk.entryAt?_eq_none_iff.not.mp (Disk.mem_namesIn.mp member)
    obtain ⟨item, there⟩ := Option.ne_none_iff_exists'.mp there
    have above := regular.parent (by simp) there
    rw [List.dropLast_concat, missing] at above
    cases above
  next => cases done
  next found =>
    refine (start.names listed done).swept complete fun n there => ?_
    cases found.symm.trans there

/-- A folder with segments of several days, one of them in its archive already, a segment of another
channel, and something else. -/
def mixedFolder : Disk :=
  let d := ((((({} : Disk).put ["1", "19700101_ch1.log"] "a\n").put
    ["1", "19700102_ch1.log"] "b\n").put ["1", "19700103_ch1.log"] "c\n").put
    ["1", "19700101_ch2.log"] "d\n").put ["1", "notes.txt"] "e\n"
  (pack d ["1", "19700102_ch1.log"]).1

theorem mixedFolder_regular : mixedFolder.Regular := by
  have texts := ((((Disk.empty_regular.put ["1", "19700101_ch1.log"] "a\n").put
    ["1", "19700102_ch1.log"] "b\n").put ["1", "19700103_ch1.log"] "c\n").put
    ["1", "19700101_ch2.log"] "d\n").put ["1", "notes.txt"] "e\n"
  obtain ⟨_, -, regular, -⟩ := texts.pack (Prod.ext rfl (by decide +kernel) :
    pack _ ["1", "19700102_ch1.log"] = ((pack _ ["1", "19700102_ch1.log"]).1, true))
  exact regular

/-- A sweep that keeps three days and leaves two of them plain. -/
def tidying : Sweep :=
  ⟨1, { retentionDays := 3, compressAfterDays := some 2 }, ⟨1970, 1, 5⟩, none⟩

/-- The names with the last ones first, and an archive that the sweep makes. -/
def mixedListing : List String :=
  ["notes.txt", "19700102_ch1.log.gz", "19700101_ch2.log", "19700103_ch1.log", "19700102_ch1.log",
    "19700103_ch1.log.gz", "19700101_ch1.log"]

/-- The oldest segment is deleted, and the next two are packed, one of them behind what its archive
holds. -/
theorem mixedFolder_swept :
    ∃ d', tidying.run mixedFolder mixedListing = (d', some ⟨1, 2⟩) ∧
      Swept tidying mixedFolder d' ⟨1, 2⟩ ∧
      tidying.expired mixedFolder = ["19700101_ch1.log"] ∧
      tidying.packed mixedFolder = ["19700102_ch1.log", "19700103_ch1.log"] ∧
      d'.contentAt? ["1", "19700102_ch1.log.gz"] = some [.packed "b\n", .packed "b\n"] ∧
      d'.contentAt? ["1", "19700103_ch1.log.gz"] = some [.packed "c\n"] := by
  have done : tidying.run mixedFolder mixedListing =
      ((tidying.run mixedFolder mixedListing).1, some ⟨1, 2⟩) := Prod.ext rfl (by decide +kernel)
  have complete : ∀ name ∈ mixedFolder.namesIn (channelFolder 1), name ∈ mixedListing := by
    decide +kernel
  exact ⟨_, done, swept_of_run mixedFolder_regular complete done, by decide +kernel,
    by decide +kernel, by decide +kernel, by decide +kernel⟩

end Sweep

end Fieldbus.Log
