import Mathlib.Data.List.Nodup
import Mathlib.Data.List.Perm.Subperm
import Fieldbus.Log.Writer
import Fieldbus.Proofs.Log.SegmentName
import Fieldbus.Proofs.Log.Files

/-!
# Lines in segments

The lines of a channel and a day fill segments: a line goes to the last segment, and to a new one
if it does not fit there (`Segmented`).  So the segments hold the lines in order, and a segment
exceeds the ceiling with a single line only.

On the disk the segments of a day are the files with the numbers from zero on (`Filed`).  The
search for the newest segment finds the last one (`newest_eq`), and a line that is put behind the
segment that takes it is one more line that is filled in (`Takes.fills`).
-/

namespace Fieldbus.Log

/-! ## Filling segments -/

/-- A file of some lines. -/
def Content.ofLines (lines : List String) : Content := lines.map .text

theorem Content.plain_ofLines (lines : List String) :
    (Content.ofLines lines).plain = String.join lines := by
  simp [Content.plain, Content.ofLines, Function.comp_def]

/-- The size of a segment of some lines, in bytes. -/
def linesSize (lines : List String) : Nat := (Content.ofLines lines).size

theorem linesSize_concat (lines : List String) (line : String) :
    linesSize (lines ++ [line]) = linesSize lines + line.utf8ByteSize := by
  unfold linesSize Content.ofLines
  rw [List.map_append]
  exact Content.size_append_text ..

/-- Lines and the segments they fill. -/
inductive Segmented (ceiling : Nat) : List String → List (List String) → Prop
  | empty : Segmented ceiling [] []
  | extend {lines front last line} :
      Segmented ceiling lines (front ++ [last]) →
      linesSize last + line.utf8ByteSize ≤ ceiling →
      Segmented ceiling (lines ++ [line]) (front ++ [last ++ [line]])
  | next {lines segments line} :
      Segmented ceiling lines segments →
      (∀ last ∈ segments.getLast?, ceiling < linesSize last + line.utf8ByteSize) →
      Segmented ceiling (lines ++ [line]) (segments ++ [[line]])

namespace Segmented

variable {ceiling : Nat} {lines : List String} {segments : List (List String)}

/-- Nothing is lost and nothing changes its place. -/
theorem flatten_eq (h : Segmented ceiling lines segments) : segments.flatten = lines := by
  induction h with
  | empty => rfl
  | extend _ _ ih =>
    rw [← ih]
    simp
  | next _ _ ih =>
    rw [← ih]
    simp

/-- A segment is one line, or it has grown to one that fits below the ceiling. -/
theorem forall_mem {P : List String → Prop} (h : Segmented ceiling lines segments)
    (single : ∀ line, P [line])
    (grown : ∀ last line, linesSize (last ++ [line]) ≤ ceiling → P (last ++ [line])) :
    ∀ segment ∈ segments, P segment := by
  induction h with
  | empty => simp
  | extend _ fits ih =>
    intro segment member
    rcases List.mem_append.mp member with earlier | final
    · exact ih segment (List.mem_append_left _ earlier)
    · rw [List.mem_singleton.mp final]
      exact grown _ _ (by rwa [linesSize_concat])
  | next _ _ ih =>
    intro segment member
    rcases List.mem_append.mp member with earlier | final
    · exact ih segment earlier
    · rw [List.mem_singleton.mp final]
      exact single _

theorem bounded (h : Segmented ceiling lines segments) :
    ∀ segment ∈ segments, linesSize segment ≤ ceiling ∨ ∃ line, segment = [line] :=
  h.forall_mem (fun line => .inr ⟨line, rfl⟩) (fun _ _ fits => .inl fits)

theorem ne_nil (h : Segmented ceiling lines segments) : ∀ segment ∈ segments, segment ≠ [] :=
  h.forall_mem (fun _ => by simp) (fun _ _ _ => by simp)

/-- Segments of lines that are not empty are not empty. -/
theorem linesSize_pos (h : Segmented ceiling lines segments)
    (written : ∀ line ∈ lines, 0 < line.utf8ByteSize) :
    ∀ segment ∈ segments, 0 < linesSize segment := by
  intro segment member
  obtain ⟨line, rest, rfl⟩ := List.exists_cons_of_ne_nil (h.ne_nil segment member)
  have inside : line ∈ lines := by
    rw [← h.flatten_eq]
    exact List.mem_flatten.mpr ⟨_, member, List.mem_cons_self⟩
  have := written line inside
  rw [linesSize, Content.size, Content.plain_ofLines, String.join_cons, String.utf8ByteSize_append]
  omega

end Segmented

/-! ## Segments on the disk -/

open Writer (segmentPath newest newestFrom)

/-- The files of a channel's day are these segments, numbered from zero on. -/
def Filed (d : Disk) (channel : UInt16) (day : Date) (segments : List (List String)) : Prop :=
  ∀ number, d.files (segmentPath channel day number) = segments[number]?.map Content.ofLines

theorem segmentPath_length (channel : UInt16) (day : Date) (number : Nat) :
    (segmentPath channel day number).length = 2 := rfl

theorem segmentPath_dropLast (channel : UInt16) (day : Date) (number : Nat) :
    (segmentPath channel day number).dropLast = channelFolder channel := rfl

theorem segmentPath_succ_ne (channel : UInt16) {day : Date} (h : day.TwoDigit) (number : Nat) :
    segmentPath channel day (number + 1) ≠ segmentPath channel day number := fun same =>
  absurd (Writer.segmentPath_inj h h same).2.2 (Nat.succ_ne_self number)

/-! ## The newest segment -/

theorem Filed.isSome {d : Disk} {channel : UInt16} {day : Date} {segments : List (List String)}
    (filed : Filed d channel day segments) (number : Nat) :
    (d.files (segmentPath channel day number)).isSome = decide (number < segments.length) := by
  rw [filed number, Option.isSome_map, Bool.eq_iff_iff, decide_eq_true_iff]
  simp

/-- The search for the newest segment ends at the last one, given enough steps. -/
theorem newestFrom_eq {d : Disk} {channel : UInt16} {day : Date} {count : Nat}
    (present : ∀ number, d.exists? (segmentPath channel day number) = decide (number < count))
    {fuel number : Nat} (below : number ≤ count - 1) (enough : count - 1 ≤ number + fuel) :
    newestFrom d channel day fuel number = count - 1 := by
  induction fuel generalizing number with
  | zero => exact Nat.le_antisymm below enough
  | succ fuel ih =>
    unfold newestFrom
    rw [present]
    by_cases more : number + 1 < count
    · rw [if_pos (by simpa using more)]
      exact ih (by omega) (by omega)
    · rw [if_neg (by simpa using more)]
      omega

/-- Each segment of a day is an item of its own. -/
theorem Filed.length_le {d : Disk} (sound : d.Sound) {channel : UInt16} {day : Date}
    (h : day.TwoDigit) {segments : List (List String)} (filed : Filed d channel day segments) :
    segments.length ≤ d.items.size := by
  have distinct : ((List.range segments.length).map (segmentPath channel day)).Nodup :=
    List.Nodup.map (fun _ _ same => (Writer.segmentPath_inj h h same).2.2) List.nodup_range
  have items : (List.range segments.length).map (segmentPath channel day) ⊆ d.items.keys := by
    intro path member
    obtain ⟨number, inside, rfl⟩ := List.mem_map.mp member
    have there : d.exists? (segmentPath channel day number) = true := by
      rw [sound.exists?_eq (segmentPath_length ..), filed.isSome]
      simpa using List.mem_range.mp inside
    exact Table.mem_keys_of_get? there
  calc segments.length
      = ((List.range segments.length).map (segmentPath channel day)).length := by simp
    _ ≤ d.items.keys.length := (List.subperm_of_subset distinct items).length_le
    _ = d.items.size := List.length_map ..

theorem newest_eq {d : Disk} (sound : d.Sound) {channel : UInt16} {day : Date}
    (h : day.TwoDigit) {segments : List (List String)} (filed : Filed d channel day segments) :
    newest d channel day = segments.length - 1 := by
  refine newestFrom_eq (fun number => ?_) (Nat.zero_le _) ?_
  · rw [sound.exists?_eq (segmentPath_length ..), filed.isSome]
  · have := filed.length_le sound h
    omega

/-! ## The segment that takes a line -/

/-- The segment of a day that takes a line of a size. -/
inductive Takes (ceiling size : Nat) : List (List String) → Nat → Prop
  | first : Takes ceiling size [] 0
  | last {front last} : linesSize last + size ≤ ceiling →
      Takes ceiling size (front ++ [last]) front.length
  | next {front last} : ceiling < linesSize last + size →
      Takes ceiling size (front ++ [last]) (front.length + 1)

/-- A line fills the segments of its day further in the segment that takes it. -/
theorem Takes.fills {ceiling number : Nat} {line : String} {lines : List String}
    {segments : List (List String)} {d d' : Disk} {channel : UInt16} {day : Date}
    (takes : Takes ceiling line.utf8ByteSize segments number)
    (segmented : Segmented ceiling lines segments) (h : day.TwoDigit)
    (filed : Filed d channel day segments)
    (files : d'.files = d.files.extend (segmentPath channel day number) [.text line]) :
    ∃ segments', Segmented ceiling (lines ++ [line]) segments' ∧
      Filed d' channel day segments' := by
  -- Only the segment that takes the line is changed.
  have filed' (other : Nat) : d'.files (segmentPath channel day other) =
      if other = number then some ((segments[number]?.map Content.ofLines).getD [] ++ [.text line])
      else segments[other]?.map Content.ofLines := by
    rw [files, ← filed, ← filed]
    by_cases same : other = number
    · rw [if_pos same, same, Files.extend_self]
    · rw [if_neg same, Files.extend_other]
      exact fun paths => same (Writer.segmentPath_inj h h paths).2.2
  cases takes with
  | first =>
    refine ⟨_, .next segmented (by simp), fun other => ?_⟩
    rw [filed']
    cases other <;> simp [Content.ofLines]
  | @last front last fits =>
    refine ⟨_, .extend segmented fits, fun other => ?_⟩
    rw [filed']
    split
    next same =>
      subst same
      simp [Content.ofLines]
    next apart =>
      rcases Nat.lt_or_gt_of_ne apart with before | after
      · rw [List.getElem?_append_left before, List.getElem?_append_left before]
      · rw [List.getElem?_eq_none (by simp; omega), List.getElem?_eq_none (by simp; omega)]
  | @next front last full =>
    refine ⟨_, .next segmented (by simpa using full), fun other => ?_⟩
    rw [filed']
    split
    next same =>
      subst same
      simp [Content.ofLines]
    next apart =>
      rcases Nat.lt_or_gt_of_ne apart with before | after
      · have inside : other < (front ++ [last]).length := by simpa using before
        rw [List.getElem?_append_left inside]
      · rw [List.getElem?_eq_none (by simp; omega), List.getElem?_eq_none (by simp; omega)]

end Fieldbus.Log
