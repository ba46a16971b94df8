import Mathlib.Algebra.GroupWithZero.Nat
import Mathlib.Data.List.Induction
import Fieldbus.Proofs.Config.Accepted
import Fieldbus.Proofs.Plan.Structure

/-!
# What becomes of channel entries

An entry of a document is used, or it is refused for one reason.  `Judges` has one rule for each
way, and looks at the entries before it only for the ids that they use.  `Judged` is a document
with what becomes of each of its entries.

Loading gives exactly that (`load_of_judged`): the channels of the used entries and the defects of
the others, both in the order of the entries.  A refused entry is no concern of the others, since
they see nothing of it but their place in the document (`load_isolates`).  That does not depend on
how an entry is read.

An entry whose segments are too large is neither used nor refused: it ends the loading of all
(`load_of_overflows`).
-/

namespace Fieldbus

/-- The defect as it is for the same entry one place later. -/
def Defect.later : Defect → Defect
  | .entry index reason => .entry (index + 1) reason
  | defect => defect

/-- What a channel that passes every check is. -/
structure Channel.Checked (c : Channel) : Prop where
  /-- Each point is checked. -/
  points : ∀ p ∈ c.points, p.Checked
  /-- No two points have one id. -/
  distinct : (c.points.map Point.id).Nodup
  interval : 0 < c.interval
  timeout : 0 < c.timeout
  connectTimeout : 0 < c.connectTimeout
  /-- A read of registers may ask for one. -/
  registers : 0 < c.limits.registers
  /-- A read of bits may ask for one. -/
  coils : 0 < c.limits.coils
  /-- A batch is tried. -/
  attempts : 1 ≤ c.retry.attempts
  /-- The backoff multiplier is a finite number. -/
  finite : c.retry.multiplier.isFinite = true
  /-- The backoff multiplier is one or greater. -/
  grows : Binary64.one.rank ≤ c.retry.multiplier.rank
  /-- The points have a plan. -/
  planned : ∃ result, c.plan = .ok result

namespace Config

/-! ## One entry -/

theorem multiplier_of_checked {x : Binary64} (checked : (x.lt .one || !x.isFinite) = false) :
    x.isFinite = true ∧ Binary64.one.rank ≤ x.rank := by
  simp only [Bool.or_eq_false_iff, Bool.not_eq_false'] at checked
  obtain ⟨above, finite⟩ := checked
  have number : x.isNaN = false := by
    simp only [Binary64.isFinite, Binary64.isNaN, decide_eq_true_eq, decide_eq_false_iff_not]
      at finite ⊢
    omega
  have one : Binary64.one.isNaN = false := by decide
  simpa [Binary64.lt, number, one, finite] using above

/-- The numbers of an entry that passes are in their ranges. -/
theorem checkEntry_eq_ok {e : Entry} (h : checkEntry e = .ok ()) :
    e.intervalMs ≠ 0 ∧ e.timeoutMs ≠ 0 ∧ e.maxBatchSize ≠ 0 ∧ e.maxBatchCoils ≠ 0 ∧
      e.retry.multiplier.isFinite = true ∧ Binary64.one.rank ≤ e.retry.multiplier.rank := by
  simp only [checkEntry, bind, Except.bind, throw, throwThe, MonadExceptOf.throw] at h
  split at h
  next => cases h
  next =>
    split at h
    next => cases h
    next interval =>
      split at h
      next => cases h
      next timeout =>
        split at h
        next => cases h
        next size =>
          split at h
          next => cases h
          next multiplier =>
            simp only [Bool.or_eq_true, decide_eq_true_eq, not_or] at size
            exact ⟨interval, timeout, size.1, size.2,
              multiplier_of_checked (by simpa using multiplier)⟩

/-- An accepted channel has passed every check. -/
theorem Entry.checked_of_toChannel {e : Entry} {c : Channel} (h : e.toChannel = .ok c) :
    c.Checked := by
  obtain ⟨passed, -, rfl⟩ := toChannel_eq_ok_iff.mp h
  obtain ⟨checked, points, distinct, planned⟩ := of_check passed
  obtain ⟨interval, timeout, registers, coils, finite, grows⟩ := checkEntry_eq_ok checked
  exact {
    points, distinct, finite, grows, planned
    interval := Nat.mul_pos (Nat.pos_of_ne_zero interval) (by decide)
    timeout := Nat.mul_pos (Nat.pos_of_ne_zero timeout) (by decide)
    connectTimeout :=
      Nat.mul_pos (Nat.lt_of_lt_of_le Nat.one_pos (Nat.le_max_left ..)) (by decide)
    registers := UInt16.pos_iff_ne_zero.mpr registers
    coils := UInt16.pos_iff_ne_zero.mpr coils
    attempts := Nat.le_max_left .. }

/-- What becomes of an entry: its channel is used, or it is refused. -/
abbrev Verdict := Except Defect Channel

section

variable {α : Type}

/-- The channels of the entries that are used. -/
def used (judged : List (α × Verdict)) : List Channel :=
  judged.filterMap fun j =>
    match j.2 with
    | .ok c => some c
    | .error _ => none

/-- The defects of the entries that are refused. -/
def refused (judged : List (α × Verdict)) : List Defect :=
  judged.filterMap fun j =>
    match j.2 with
    | .ok _ => none
    | .error defect => some defect

variable (before after : List (α × Verdict)) (value : α) (c : Channel) (defect : Defect)

@[simp] theorem used_append : used (before ++ after) = used before ++ used after :=
  List.filterMap_append

@[simp] theorem refused_append : refused (before ++ after) = refused before ++ refused after :=
  List.filterMap_append

@[simp] theorem used_ok : used ((value, .ok c) :: after) = c :: used after := rfl

@[simp] theorem used_error : used ((value, .error defect) :: after) = used after := rfl

@[simp] theorem refused_ok : refused ((value, .ok c) :: after) = refused after := rfl

@[simp] theorem refused_error :
    refused ((value, .error defect) :: after) = defect :: refused after := rfl

@[simp] theorem used_nil : used ([] : List (α × Verdict)) = [] := rfl

@[simp] theorem refused_nil : refused ([] : List (α × Verdict)) = [] := rfl

/-- Each entry is used or refused. -/
theorem length_used_add_refused (judged : List (α × Verdict)) :
    (used judged).length + (refused judged).length = judged.length := by
  induction judged with
  | nil => rfl
  | cons first rest ih =>
    obtain ⟨value, _ | _⟩ := first
    · rw [used_error, refused_error, List.length_cons, List.length_cons, ← ih]
      exact (Nat.add_assoc ..).symm
    · rw [used_ok, refused_ok, List.length_cons, List.length_cons, ← ih]
      omega

end

variable {α : Type} {r : Reader α}

/-- What becomes of an entry, by what became of those before it. -/
inductive Judges (r : Reader α) (before : List (α × Verdict)) (value : α) : Verdict → Prop
  /-- It passes every check and its id is new. -/
  | passed {e : Entry} {c : Channel} :
      r.entry value = .ok e → e.toChannel = .ok c → (∀ d ∈ used before, d.id ≠ c.id) →
      Judges r before value (.ok c)
  /-- It passes every check and its id is that of an entry before it. -/
  | repeated {e : Entry} {c d : Channel} :
      r.entry value = .ok e → e.toChannel = .ok c → d ∈ used before → d.id = c.id →
      Judges r before value (.error (.duplicateChannel c.id))
  /-- It fails a check. -/
  | failed {e : Entry} {defect : Defect} :
      r.entry value = .ok e → e.toChannel = .error (.refused defect) →
      Judges r before value (.error defect)
  /-- It cannot be read, and shows its id. -/
  | unread {reason : String} {id : UInt16} :
      r.entry value = .error reason → r.id? value = some id →
      Judges r before value (.error (.channel id (.shape reason)))
  /-- It cannot be read, and is named by its place. -/
  | unnamed {reason : String} :
      r.entry value = .error reason → r.id? value = none →
      Judges r before value (.error (.entry before.length reason))

/-- A document with what becomes of each entry. -/
inductive Judged (r : Reader α) : List (α × Verdict) → Prop
  | nil : Judged r []
  | snoc {before : List (α × Verdict)} {value : α} {verdict : Verdict} :
      Judged r before → Judges r before value verdict → Judged r (before ++ [(value, verdict)])

/-- The size of the segments of an entry that passes every check does not fit into 64 bits. -/
def Reader.Overflows (r : Reader α) (value : α) : Prop :=
  ∃ e, r.entry value = .ok e ∧ e.toChannel = .error .overflow

theorem exists_judges {value : α} (fits : ¬ r.Overflows value) (before : List (α × Verdict)) :
    ∃ verdict, Judges r before value verdict := by
  cases read : r.entry value with
  | error reason =>
    cases id : r.id? value with
    | none => exact ⟨_, .unnamed read id⟩
    | some id => exact ⟨_, .unread read id⟩
  | ok e =>
    cases passed : e.toChannel with
    | error failure =>
      cases failure with
      | refused defect => exact ⟨_, .failed read passed⟩
      | overflow => exact absurd ⟨e, read, passed⟩ fits
    | ok c =>
      by_cases taken : ∃ d ∈ used before, d.id = c.id
      · obtain ⟨d, member, same⟩ := taken
        exact ⟨_, .repeated read passed member same⟩
      · exact ⟨_, .passed read passed (by simpa using taken)⟩

theorem exists_judged {entries : List α} (fits : ∀ value ∈ entries, ¬ r.Overflows value) :
    ∃ judged, Judged r judged ∧ judged.map Prod.fst = entries := by
  induction entries using List.reverseRecOn with
  | nil => exact ⟨[], .nil, rfl⟩
  | append_singleton entries value ih =>
    obtain ⟨earlier, last⟩ := List.forall_mem_append.mp fits
    obtain ⟨before, h, rfl⟩ := ih earlier
    obtain ⟨verdict, own⟩ := exists_judges (last value List.mem_cons_self) before
    exact ⟨_, .snoc h own, by simp⟩

/-! ## A document -/

section

variable {before after judged : List (α × Verdict)} {entries : List α} {value : α}
  {verdict : Verdict} {defect : Defect}

/-- The outcome of one more entry is what becomes of it. -/
theorem Judges.next (h : Judges r before value verdict) :
    Loaded.next r ⟨used before, refused before⟩ value =
      .ok ⟨used (before ++ [(value, verdict)]), refused (before ++ [(value, verdict)])⟩ := by
  have size : Loaded.size ⟨used before, refused before⟩ = before.length :=
    length_used_add_refused before
  cases h with
  | @passed e c read passed new =>
    have fresh : (used before).any (fun d => d.id == c.id) = false := by simpa using new
    simp [Loaded.next, readChannel, read, passed, fresh]
  | @repeated e c d read passed member same =>
    have taken : (used before).any (fun d => d.id == c.id) = true := by
      simpa using ⟨d, member, same⟩
    simp [Loaded.next, readChannel, read, passed, taken, Loaded.reject]
  | failed read failed => simp [Loaded.next, readChannel, read, failed, Loaded.reject]
  | unread read id => simp [Loaded.next, readChannel, read, id, Loaded.reject]
  | unnamed read id => simp [Loaded.next, readChannel, read, id, Loaded.reject, size]

theorem load_append (before after : List α) :
    load r (before ++ after) = load r before >>= fun l => after.foldlM (Loaded.next r) l :=
  List.foldlM_append

/-- Loading gives the channels that are used and the defects of the other entries. -/
theorem load_of_judged (h : Judged r judged) :
    load r (judged.map Prod.fst) = .ok ⟨used judged, refused judged⟩ := by
  induction h with
  | nil => rfl
  | snoc _ own ih =>
    rw [List.map_append, load_append, ih]
    show Loaded.next r ⟨_, _⟩ _ >>= pure = _
    rw [bind_pure, own.next]

/-- An entry whose size overflows ends the loading. -/
theorem load_of_overflows (overflows : r.Overflows value) (member : value ∈ entries) :
    ∃ loaded, load r entries = .error loaded := by
  obtain ⟨e, read, large⟩ := overflows
  obtain ⟨before, after, rfl⟩ := List.append_of_mem member
  rw [load_append]
  cases load r before with
  | error loaded => exact ⟨loaded, rfl⟩
  | ok loaded =>
    have ends : loaded.next r value = .error loaded := by
      simp only [Loaded.next, readChannel, read, large]
    refine ⟨loaded, ?_⟩
    show loaded.next r value >>= (fun l => after.foldlM (Loaded.next r) l) = _
    rw [ends]
    rfl

/-- A document that is loaded is judged entry by entry. -/
theorem exists_judged_of_load {loaded : Loaded} (h : load r entries = .ok loaded) :
    ∃ judged, Judged r judged ∧ judged.map Prod.fst = entries ∧
      loaded = ⟨used judged, refused judged⟩ := by
  have fits : ∀ value ∈ entries, ¬ r.Overflows value := by
    intro value member overflows
    obtain ⟨before, ends⟩ := load_of_overflows overflows member
    rw [h] at ends
    cases ends
  obtain ⟨judged, own, rfl⟩ := exists_judged fits
  rw [load_of_judged own] at h
  cases h
  exact ⟨judged, own, rfl, rfl⟩

/-- No two entries are used with one id, and each channel that is used has passed every check. -/
theorem Judged.used_nodup_checked (h : Judged r judged) :
    ((used judged).map Channel.id).Nodup ∧ ∀ c ∈ used judged, c.Checked := by
  induction h with
  | nil => simp
  | @snoc before value verdict _ own ih =>
    obtain ⟨distinct, checked⟩ := ih
    cases own with
    | @passed e c read passed new =>
      simp only [used_append, used_ok, used_nil, List.map_append, List.map_cons, List.map_nil]
      constructor
      · refine List.nodup_append.mpr ⟨distinct, by simp, ?_⟩
        rintro id member _ last
        obtain ⟨d, own, rfl⟩ := List.mem_map.mp member
        rw [List.mem_singleton.mp last]
        exact new d own
      · intro d member
        rcases List.mem_append.mp member with member | member
        · exact checked d member
        · rw [List.mem_singleton.mp member]
          exact Entry.checked_of_toChannel passed
    | repeated | failed | unread | unnamed => simpa using ⟨distinct, checked⟩

/-- The channels of a document have distinct ids and have passed every check. -/
theorem load_checked {loaded : Loaded} (h : load r entries = .ok loaded) :
    (loaded.channels.map Channel.id).Nodup ∧ ∀ c ∈ loaded.channels, c.Checked := by
  obtain ⟨judged, own, -, rfl⟩ := exists_judged_of_load h
  exact own.used_nodup_checked

/-! ## A refused entry -/

theorem later_of_checkPoints {channel : UInt16} {seen : List UInt32} {points : List Point}
    (h : checkPoints channel seen points = .error defect) : defect.later = defect := by
  induction points generalizing seen with
  | nil => cases h
  | cons p rest ih =>
    simp only [checkPoints, bind, Except.bind, throw, throwThe, MonadExceptOf.throw] at h
    split at h
    next =>
      cases h
      rfl
    next =>
      cases checked : checkPoint p with
      | error cause =>
        rw [checked] at h
        cases h
        rfl
      | ok _ =>
        rw [checked] at h
        exact ih h

/-- The defect of an entry that was read does not show its place. -/
theorem later_of_check {e : Entry} (h : e.check = .error defect) : defect.later = defect := by
  simp only [Entry.check, bind, Except.bind] at h
  split at h
  next cause failed =>
    cases checked : checkEntry e with
    | error cause =>
      rw [checked] at failed
      cases failed
      cases h
      rfl
    | ok _ =>
      rw [checked] at failed
      cases failed
  next =>
    split at h
    next failed =>
      cases h
      exact later_of_checkPoints failed
    next =>
      split at h
      next failed =>
        cases h
        obtain ⟨_, p, _, -, -, -, rfl⟩ := plan_eq_error_iff.mp failed
        unfold Point.defect
        split <;> rfl
      next => cases h

variable {others : List (α × Verdict)} {next : α}

/-- Without a refused entry before it, an entry is used as it is with it, or refused with the same
defect one place earlier. -/
theorem Judges.without (h : Judges r (before ++ (value, .error defect) :: after) next verdict)
    (same : used others = used after) (length : others.length = after.length) :
    ∃ verdict', Judges r (before ++ others) next verdict' ∧
      used [(next, verdict')] = used [(next, verdict)] ∧
      refused [(next, verdict)] = (refused [(next, verdict')]).map Defect.later := by
  have seen : used (before ++ others) = used (before ++ (value, .error defect) :: after) := by
    rw [used_append, used_append, used_error, same]
  cases h with
  | passed read passed new => exact ⟨_, .passed read passed (seen ▸ new), rfl, rfl⟩
  | repeated read passed member id => exact ⟨_, .repeated read passed (seen ▸ member) id, rfl, rfl⟩
  | failed read failed =>
    have place := later_of_check (Entry.toChannel_eq_refused_iff.mp failed)
    exact ⟨_, .failed read failed, rfl, by simp [place]⟩
  | unread read id => exact ⟨_, .unread read id, rfl, rfl⟩
  | unnamed read id =>
    refine ⟨_, .unnamed read id, rfl, ?_⟩
    simp [Defect.later, length]
    omega

/-- A document without a refused entry is judged as with it, up to the places of those behind. -/
theorem Judged.without (h : Judged r (before ++ (value, .error defect) :: after)) :
    ∃ others, Judged r (before ++ others) ∧ others.map Prod.fst = after.map Prod.fst ∧
      used others = used after ∧ refused after = (refused others).map Defect.later := by
  induction after using List.reverseRecOn with
  | nil =>
    generalize whole : before ++ [(value, .error defect)] = judged at h
    cases h with
    | nil => simp at whole
    | snoc earlier _ =>
      obtain ⟨rfl, -⟩ := List.append_inj' whole rfl
      exact ⟨[], by simpa using earlier, rfl, rfl, rfl⟩
  | append_singleton after last ih =>
    rw [← List.cons_append, ← List.append_assoc] at h
    generalize whole : before ++ (value, .error defect) :: after ++ [last] = judged at h
    cases h with
    | nil => simp at whole
    | @snoc _ next verdict earlier own =>
      obtain ⟨rfl, same⟩ := List.append_inj' whole rfl
      obtain rfl := List.singleton_inj.mp same
      obtain ⟨others, apart, names, same, defects⟩ := ih earlier
      have length : others.length = after.length := by
        simpa only [List.length_map] using congrArg List.length names
      obtain ⟨verdict', judges, used', refused'⟩ := own.without same length
      refine ⟨others ++ [(next, verdict')], ?_, by simp [names], ?_, ?_⟩
      · rw [← List.append_assoc]
        exact .snoc apart judges
      · rw [used_append, used_append, same, used']
      · rw [refused_append, refused_append, defects, refused', List.map_append]

/-- Without a refused entry the same channels are used, and the other defects are the same but for
the places that those behind it show. -/
theorem load_without (h : Judged r (before ++ (value, .error defect) :: after)) :
    ∃ others, refused after = others.map Defect.later ∧
      load r ((before ++ after).map Prod.fst) =
        .ok ⟨used before ++ used after, refused before ++ others⟩ := by
  obtain ⟨others, apart, names, same, defects⟩ := h.without
  have loads := load_of_judged apart
  rw [List.map_append, names, ← List.map_append, used_append, refused_append, same] at loads
  exact ⟨refused others, defects, loads⟩

end

/-- Loading judges each entry by itself and by the ids that are used before it, in whatever way
entries are read.  No two used channels have one id, and each has passed every check.  A refused
entry may as well not be there: without it the same channels are used, and the other entries are
refused for the same reasons, up to the places that they show. -/
theorem load_isolates (r : Reader α) (entries : List α)
    (fits : ∀ value ∈ entries, ∀ e, r.entry value = .ok e → e.logging.maxSegmentMb < 2 ^ 44) :
    ∃ judged, Judged r judged ∧ judged.map Prod.fst = entries ∧
      load r entries = .ok ⟨used judged, refused judged⟩ ∧
      ((used judged).map Channel.id).Nodup ∧ (∀ c ∈ used judged, c.Checked) ∧
      ∀ before value defect after, judged = before ++ (value, .error defect) :: after →
        ∃ others, refused judged = refused before ++ defect :: others.map Defect.later ∧
          load r ((before ++ after).map Prod.fst) =
            .ok ⟨used judged, refused before ++ others⟩ := by
  have small : ∀ value ∈ entries, ¬ r.Overflows value := by
    rintro value member ⟨e, read, large⟩
    have bytes := (Entry.toChannel_eq_overflow_iff.mp large).2
    have mebibytes := fits value member e read
    have size : UInt64.size = 2 ^ 44 * (1024 * 1024) := rfl
    rw [segmentBytes, size] at bytes
    omega
  obtain ⟨judged, h, rfl⟩ := exists_judged small
  obtain ⟨distinct, checked⟩ := h.used_nodup_checked
  refine ⟨judged, h, rfl, load_of_judged h, distinct, checked, ?_⟩
  rintro before value defect after rfl
  obtain ⟨others, same, without⟩ := load_without h
  exact ⟨others, by simp [same], by simpa using without⟩

/-- A channel without points, by its name. -/
def namedEntry (name : String) : Yaml.Value :=
  .table [(.string "id", .int 1), (.string "name", .string name),
    (.string "transport", .table [(.string "kind", .string "tcp"), (.string "host", .string "h")])]

/-- The first entry does not take the id from the third, and the third takes it from the fourth. -/
def namedEntries : List Yaml.Value := [namedEntry " ", .null, namedEntry "a", namedEntry "b"]

theorem named_load_isolates :
    (∀ value ∈ namedEntries, ∀ e, Reader.yaml.entry value = .ok e →
      e.logging.maxSegmentMb < 2 ^ 44) ∧
    ∃ judged, Judged .yaml judged ∧ judged.map Prod.fst = namedEntries ∧
      (used judged).map Channel.name = ["a"] ∧
      refused judged = [.channel 1 .emptyName, .entry 1 "not a channel entry",
        .duplicateChannel 1] := by
  have all : (namedEntries.all fun value => (Reader.yaml.entry value).toOption.all fun e =>
      e.logging.maxSegmentMb < 2 ^ 44) = true := by decide +kernel
  have fits : ∀ value ∈ namedEntries, ∀ e, Reader.yaml.entry value = .ok e →
      e.logging.maxSegmentMb < 2 ^ 44 := by
    intro value member e read
    have own := List.all_eq_true.mp all value member
    rw [read] at own
    exact of_decide_eq_true own
  obtain ⟨judged, h, names, loads, -⟩ := load_isolates .yaml namedEntries fits
  have outcome : (load .yaml namedEntries).toOption.map (fun l =>
      (l.channels.map Channel.name, l.rejected)) =
        some (["a"], [.channel 1 .emptyName, .entry 1 "not a channel entry",
          .duplicateChannel 1]) := by
    decide +kernel
  rw [loads] at outcome
  obtain ⟨channels, rejected⟩ := Prod.mk.inj (Option.some.inj outcome)
  exact ⟨fits, judged, h, names, channels, rejected⟩

end Config

end Fieldbus
