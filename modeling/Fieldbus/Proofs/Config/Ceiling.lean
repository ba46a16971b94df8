import Fieldbus.Proofs.Config.Loading
import Fieldbus.Proofs.Log.Appending

/-!
# The ceiling of log segments

An entry gives the ceiling of its log segments in mebibytes, and the channel keeps it in bytes.  The
ceiling of an accepted channel is what was configured, and at least one mebibyte.  So no line that
leaves a segment within one mebibyte opens the next segment.

But nothing checks the range of the product, which is computed in 64 bits.  An entry with 2⁴⁴
mebibytes or more passes every check, and then its size overflows.  It is not refused: no entry of
its document is loaded (`Config.ceiling_of_toChannel`).
-/

namespace Fieldbus

/-! ## Mebibytes in bytes -/

namespace Config

theorem segmentBytes_mono {fewer more : Nat} (le : fewer ≤ more) :
    segmentBytes fewer ≤ segmentBytes more := by
  have least : max 1 fewer ≤ max 1 more := by omega
  exact Nat.mul_le_mul_right _ least

theorem mebibyte_le_segmentBytes (mebibytes : Nat) : 2 ^ 20 ≤ segmentBytes mebibytes :=
  Nat.le_mul_of_pos_left _ (Nat.lt_of_lt_of_le Nat.one_pos (Nat.le_max_left ..))

end Config

/-! ## Lines and the ceiling -/

namespace Log

namespace Writer

variable {w w₁ : Writer} {d d₁ : Disk} {record : Record} {trouble : Option Trouble}
  {s : Segment.Open}

/-- Looking for a segment changes no policy. -/
theorem policy_find {channel : UInt16} {day : Date} {found : Option Segment.Open}
    (finds : w.find d channel day trouble = (w₁, d₁, found)) (other : UInt16) :
    w₁.policy other = w.policy other := by
  unfold find at finds
  split at finds
  next =>
    cases finds
    rfl
  next =>
    split at finds
    next =>
      cases finds
      rfl
    next =>
      cases finds
      rfl

/-- A line that fits goes to the segment that was found. -/
theorem append_of_fits
    (finds : w.find d record.channel record.time.date trouble = (w₁, d₁, some s))
    (fits : s.size + (record.line (w.policy record.channel).level).utf8ByteSize ≤
      (w.policy record.channel).maxSegmentBytes) :
    w.append d record trouble =
      (w₁.publish record.channel s).writeLine d₁ record.channel s
        (record.line (w.policy record.channel).level) trouble := by
  have stays : overflows (w.policy record.channel) s
      (record.line (w.policy record.channel).level).utf8ByteSize = false := by
    rw [overflows, decide_eq_false (Nat.not_lt.mpr fits), Bool.and_false]
  have target : w.target d record.channel record.time.date
      (record.line (w.policy record.channel).level).utf8ByteSize trouble = (w₁, d₁, some s) := by
    rw [target_eq, finds]
    simp [rotate, policy_find finds, stays]
  unfold append
  simp only [target]

end Writer

end Log

/-! ## Loading -/

namespace Config

open Log (Writer Disk Record Trouble Segment.Open)

/-- The ceiling of an accepted entry is the configured number of mebibytes, its bytes fit into 64
bits, and it is at least one mebibyte.  A larger number gives a larger ceiling.  A line that leaves
a segment within one mebibyte goes to the segment that is found for it.

An entry overflows if and only if it passes every check and its bytes do not fit.  Then no document
with the entry is loaded, whatever else is in it. -/
theorem ceiling_of_toChannel (e : Entry) :
    let mebibytes := max 1 e.logging.maxSegmentMb
    (∀ c, e.toChannel = .ok c →
      c.log.maxSegmentBytes = mebibytes * 2 ^ 20 ∧ c.log.maxSegmentBytes < 2 ^ 64 ∧
      2 ^ 20 ≤ c.log.maxSegmentBytes ∧
      (∀ (e' : Entry) (c' : Channel), e'.toChannel = .ok c' →
        e'.logging.maxSegmentMb ≤ e.logging.maxSegmentMb →
          c'.log.maxSegmentBytes ≤ c.log.maxSegmentBytes) ∧
      ∀ (w : Writer) (d : Disk) (record : Record) (trouble : Option Trouble) (w₁ : Writer)
        (d₁ : Disk) (s : Segment.Open),
        w.policy record.channel = c.log →
        w.find d record.channel record.time.date trouble = (w₁, d₁, some s) →
        let line := record.line c.log.level
        s.size + line.utf8ByteSize ≤ 2 ^ 20 →
          w.append d record trouble =
            (w₁.publish record.channel s).writeLine d₁ record.channel s line trouble) ∧
    (e.toChannel = .error .overflow ↔ e.check = .ok () ∧ 2 ^ 64 ≤ mebibytes * 2 ^ 20) ∧
    (e.toChannel = .error .overflow →
      ∀ {α : Type} (r : Reader α) (value : α) (entries : List α), r.entry value = .ok e →
        value ∈ entries → ∃ loaded, load r entries = .error loaded) := by
  intro mebibytes
  refine ⟨fun c accepted => ?_, Entry.toChannel_eq_overflow_iff, ?_⟩
  · obtain ⟨-, fits, rfl⟩ := Entry.toChannel_eq_ok_iff.mp accepted
    refine ⟨rfl, fits, mebibyte_le_segmentBytes _, fun e' c' accepted' le => ?_, ?_⟩
    · obtain ⟨-, -, rfl⟩ := Entry.toChannel_eq_ok_iff.mp accepted'
      exact segmentBytes_mono le
    · intro w d record trouble w₁ d₁ s policy finds line small
      have within : s.size + (record.line (w.policy record.channel).level).utf8ByteSize ≤
          (w.policy record.channel).maxSegmentBytes := by
        rw [policy]
        exact Nat.le_trans small (mebibyte_le_segmentBytes _)
      rw [Writer.append_of_fits finds within, policy]
  · intro overflows α r value entries read member
    exact load_of_overflows ⟨e, read, overflows⟩ member

/-! ## A feeder -/

/-- An entry with a ceiling of a number of mebibytes. -/
def feeder (mebibytes : Nat) : Entry where
  id := 1
  name := "feeder"
  medium := .tcp "plc" 502
  logging := { maxSegmentMb := mebibytes }

theorem feeder_check (mebibytes : Nat) : (feeder mebibytes).check = .ok () := by
  have name : Text.isBlank "feeder" = false := by decide +kernel
  have host : Text.isBlank "plc" = false := by decide +kernel
  have checked : checkEntry (feeder mebibytes) = .ok () := by
    simp only [checkEntry, checkMedium, feeder, name, host]
    rfl
  have planned : plan (feeder mebibytes).limits 1 [] =
      .ok ⟨groupPoints (feeder mebibytes).limits (sortPoints [])⟩ :=
    plan_eq_ok_iff.mpr ⟨by simp, rfl⟩
  rw [Entry.check, checked]
  show (plan (feeder mebibytes).limits 1 [] >>= fun _ => pure ()) = _
  rw [planned]
  rfl

theorem feeder_accepted {mebibytes : Nat} (fits : segmentBytes mebibytes < 2 ^ 64) :
    (feeder mebibytes).toChannel = .ok (feeder mebibytes).channel :=
  Entry.toChannel_eq_ok_iff.mpr ⟨feeder_check mebibytes, fits, rfl⟩

/-- A record with a line of 76 bytes. -/
def linked : Record := { channel := 1, time := 0, purpose := .connect }

/-- A writer and a disk with one such record. -/
def afterLinked : Writer × Disk :=
  Writer.run { policies := ⟨[(1, (feeder 50).channel.log)]⟩ } {} [linked]

/-- The segment with one line. -/
def linkedSegment : Segment.Open where
  day := ⟨1970, 1, 1⟩
  number := 0
  path := Writer.segmentPath 1 ⟨1970, 1, 1⟩ 0
  file := 0
  size := 76

theorem find_linkedSegment :
    afterLinked.1.find afterLinked.2 1 linked.time.date none =
      (afterLinked.1, afterLinked.2, some linkedSegment) := by
  have holds : afterLinked.1.segments.get? 1 = some linkedSegment := by decide +kernel
  have own : (some linkedSegment).filter (fun s => s.day = linked.time.date) =
      some linkedSegment := by decide +kernel
  unfold Writer.find
  rw [holds, own]

/-- With 50 mebibytes the second line goes to the segment of the first.  With 2⁴⁴, nothing is
loaded. -/
theorem linked_ceiling_of_toChannel :
    (feeder 50).toChannel = .ok (feeder 50).channel ∧
      (feeder 50).channel.log.maxSegmentBytes = 50 * 2 ^ 20 ∧
      (feeder 1).channel.log.maxSegmentBytes ≤ (feeder 50).channel.log.maxSegmentBytes ∧
      afterLinked.1.append afterLinked.2 linked =
        (afterLinked.1.publish 1 linkedSegment).writeLine afterLinked.2 1 linkedSegment
          (linked.line .info) none ∧
      (feeder (2 ^ 44)).toChannel = .error .overflow ∧
      ∃ loaded, load ⟨.ok, fun _ => none⟩ [feeder 1, feeder (2 ^ 44)] = .error loaded := by
  have accepted : (feeder 50).toChannel = .ok (feeder 50).channel := feeder_accepted (by decide)
  obtain ⟨exact, -, -, monotone, appends⟩ := (ceiling_of_toChannel (feeder 50)).1 _ accepted
  obtain ⟨-, overflows, ends⟩ := ceiling_of_toChannel (feeder (2 ^ 44))
  have large : (feeder (2 ^ 44)).toChannel = .error .overflow :=
    overflows.mpr ⟨feeder_check _, by decide⟩
  refine ⟨accepted, exact, monotone _ _ (feeder_accepted (by decide)) (by decide), ?_, large, ?_⟩
  · exact appends _ _ linked none _ _ _ rfl find_linkedSegment (by decide +kernel)
  · exact ends large _ (feeder (2 ^ 44)) _ rfl (by simp)

/-- A document with a channel that could be loaded and a feeder of 2⁴⁴ mebibytes. -/
def overflowingEntries : List Yaml.Value :=
  [namedEntry "a", .table [(.string "id", .int 2), (.string "name", .string "feeder"),
    (.string "transport", .table [(.string "kind", .string "tcp"), (.string "host", .string "plc")]),
    (.string "logging", .table [(.string "max_segment_mb", .int 17592186044416)])]]

/-- 2⁴⁴ mebibytes pass every check, and their bytes do not fit.  The other channel of the document
is lost with the feeder. -/
theorem overflowing_ceiling :
    (feeder (2 ^ 44)).check = .ok () ∧ (feeder (2 ^ 44)).toChannel = .error .overflow ∧
      (load .yaml (overflowingEntries.take 1)).toOption.map (fun l => l.channels.map Channel.name) =
        some ["a"] ∧
      (load .yaml overflowingEntries).toOption.isNone = true :=
  ⟨feeder_check _, Entry.toChannel_eq_overflow_iff.mpr ⟨feeder_check _, by decide⟩,
    by decide +kernel, by decide +kernel⟩

end Config

end Fieldbus
