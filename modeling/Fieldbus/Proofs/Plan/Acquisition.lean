import Fieldbus.Proofs.Config.Accepted
import Fieldbus.Proofs.Pdu.ReadResponse
import Fieldbus.Proofs.Plan.Structure

/-!
# Batched acquisition

Reading the batches of a plan gives every point the value that a read of its own
would give it.

`Image` is what the devices of a channel hold, and `Image.answer` what a
conforming device answers to a request.  `Image.direct` is the reading of a point
from its own units alone.  `acquired_eq_direct` ties them together for a channel
that was accepted: every batch makes a request, the answer is accepted, and each
point is cut out of the words where it lies, never before the first word and
never past the last.

The batches may overlap and bridge holes.  What matters is that a batch spans its
points (`Batch.WellFormed`), and that the units of a point are a piece of the
units of its batch (`Image.take_drop_units`).
-/

namespace Fieldbus

/-! ## Decoding looks at a value's own words -/

namespace DataType

theorem width_pos (type : DataType) : 1 ≤ type.width := by
  cases type with
  | _ => decide

/-- Words past the width of the type do not count. -/
theorem decode_take {type : DataType} {words : List UInt16} (enough : type.width ≤ words.length)
    (order : ByteOrder) (bit : Option UInt8) :
    type.decode (words.take type.width) order bit = type.decode words order bit := by
  have positive := type.width_pos
  have size : (words.take type.width).length = type.width := by
    rw [List.length_take]
    omega
  have head : (words.take type.width).headD 0 = words.headD 0 := by
    cases words with
    | nil => simp
    | cons w rest =>
      obtain ⟨n, hn⟩ : ∃ n, type.width = n + 1 := ⟨type.width - 1, by omega⟩
      rw [hn, List.take_succ_cons]
      rfl
  unfold decode
  rw [size, head, List.take_take, Nat.min_self, if_neg (Nat.lt_irrefl _),
    if_neg (Nat.not_lt.mpr enough)]

/-- Enough words hold a number, if the bit position lies in a register. -/
theorem decode_isOk {type : DataType} {words : List UInt16} (enough : type.width ≤ words.length)
    (order : ByteOrder) {bit : Option UInt8} (inside : ∀ b, bit = some b → b ≤ 15) :
    ∃ raw, type.decode words order bit = .ok raw := by
  unfold decode
  rw [if_neg (by omega)]
  split
  · cases bit with
    | none => exact ⟨_, rfl⟩
    | some b =>
      refine ⟨ofBool ((words.headD 0).toNat.testBit b.toNat), ?_⟩
      rw [decodeBool, if_neg (UInt8.not_lt.mpr (inside b rfl))]
  · exact ⟨_, rfl⟩

end DataType

/-- A checked point takes the registers of its type, on a bit table too. -/
theorem Point.Checked.width_eq {p : Point} (h : p.Checked) : p.width = p.type.width := by
  unfold Point.width
  split
  next bit => rw [h.bool_of_bit bit]; rfl
  next => rfl

/-! ## What devices hold -/

/-- What the devices of a channel hold: the bits of the bit tables and the words of the register
tables, by device and by the function that reads the table. -/
structure Image where
  bit : (slave function : UInt8) → (address : UInt16) → Bool
  /-- The word at an address. -/
  register : (slave function : UInt8) → (address : UInt16) → UInt16

namespace Image

/-- The unit at an address: a word, or zero or one for a bit. -/
def unit (m : Image) (slave function : UInt8) (address : UInt16) : UInt16 :=
  if FunctionCode.isBit function then (if m.bit slave function address then 1 else 0)
  else m.register slave function address

/-- The units from an address on. -/
def units (m : Image) (slave function : UInt8) (start : UInt16) (count : Nat) : List UInt16 :=
  (List.range count).map fun i => m.unit slave function (start + UInt16.ofNat i)

/-- What a conforming device answers to a request: the units asked for, or a refusal of a
function, an amount or a range that it does not have. -/
def answer (m : Image) (slave : UInt8) : (request : List UInt8) → List UInt8
  | [fc, a, b, c, d] =>
    let start := wordOf a b
    let quantity := wordOf c d
    if !FunctionCode.isRead fc then refusalResponse fc 0x01
    else if quantity = 0 ∨ FunctionCode.readCeiling fc < quantity then refusalResponse fc 0x03
    else if 0x10000 < start.toNat + quantity.toNat then refusalResponse fc 0x02
    else readResponse fc (m.units slave fc start quantity.toNat)
  | fc :: _ => refusalResponse fc 0x01
  | [] => []

/-- The reading of a point from its own units. -/
def direct (m : Image) (p : Point) : Except Fault Reading :=
  (p.type.decode (m.units p.slave p.function p.address p.width) p.order p.bit).map fun raw =>
    ⟨p.id, p.category, p.transform.apply raw p.type⟩

@[simp] theorem length_units (m : Image) (slave function : UInt8) (start : UInt16) (count : Nat) :
    (m.units slave function start count).length = count := by
  simp [units]

/-- The units of a bit table are bits. -/
theorem areUnits_units (m : Image) (slave function : UInt8) (start : UInt16) (count : Nat) :
    AreUnits function (m.units slave function start count) := by
  intro bit w hw
  simp only [units, List.mem_map, unit, bit, if_true] at hw
  obtain ⟨i, -, rfl⟩ := hw
  cases m.bit slave function (start + UInt16.ofNat i) with
  | true => exact Or.inr rfl
  | false => exact Or.inl rfl

/-- A piece of the units from an address on is the units from a later address on. -/
theorem take_drop_units (m : Image) (slave function : UInt8) (start : UInt16)
    {place width count : Nat} (inside : place + width ≤ count) :
    ((m.units slave function start count).drop place).take width =
      m.units slave function (start + UInt16.ofNat place) width := by
  apply List.ext_getElem
  · simp
    omega
  · intro i h₁ h₂
    simp only [units, List.getElem_take, List.getElem_drop, List.getElem_map,
      List.getElem_range, UInt16.ofNat_add, UInt16.add_assoc]

/-- A device answers a request that is in its bounds with the units asked for. -/
theorem answer_ofWords (m : Image) (slave : UInt8) {fc : UInt8} {start quantity : UInt16}
    (read : FunctionCode.isRead fc = true) (positive : 1 ≤ quantity)
    (limit : quantity ≤ FunctionCode.readCeiling fc)
    (range : start.toNat + quantity.toNat ≤ 0x10000) :
    m.answer slave (Pdu.ofWords fc start quantity).bytes =
      readResponse fc (m.units slave fc start quantity.toNat) := by
  have nonzero : quantity ≠ 0 := by
    rintro rfl
    exact absurd positive (by decide)
  simp only [answer, Pdu.ofWords, wordBytes, List.cons_append, List.nil_append, wordOf_bytes,
    read, Bool.not_true, Bool.false_eq_true, if_false]
  rw [if_neg (by simp [nonzero, UInt16.not_lt.mpr limit]), if_neg (by omega)]

/-- A checked point has a reading. -/
theorem direct_isOk (m : Image) {p : Point} (h : p.Checked) : ∃ r, m.direct p = .ok r := by
  have enough : p.type.width ≤ (m.units p.slave p.function p.address p.width).length := by
    rw [length_units, h.width_eq]
  obtain ⟨raw, decoded⟩ := DataType.decode_isOk enough p.order h.bit_le
  exact ⟨_, by rw [direct, decoded]; rfl⟩

end Image

/-! ## Reading a batch -/

namespace Batch

variable {limits : Limits} {b : Batch}

/-- A point lies in its batch: the place is counted without wrapping, and its units end with
those of the batch or before. -/
theorem WellFormed.place (h : b.WellFormed limits) {p : Point} (hp : p ∈ b.points) :
    (p.address - b.start).toNat = p.address.toNat - b.start.toNat ∧
      p.address.toNat - b.start.toNat + p.width ≤ b.quantity.toNat := by
  have start := h.start_le p hp
  have finish := h.finish_ge p hp
  refine ⟨UInt16.toNat_sub_of_le _ _ start, ?_⟩
  simp only [Point.finish, Batch.finish, UInt16.le_iff_toNat_le] at start finish
  omega

/-- The request for a batch can be made. -/
theorem WellFormed.request (h : b.WellFormed limits)
    (read : FunctionCode.isRead b.function = true) :
    b.request = .ok (Pdu.ofWords b.function b.start b.quantity) := by
  have limit := UInt16.le_trans h.quantity_le h.limit_le
  have nonzero : b.quantity ≠ 0 := by
    intro zero
    have := h.quantity_pos
    rw [zero] at this
    exact absurd this (by decide)
  unfold Batch.request Pdu.readRequest
  rw [read]
  simp [nonzero, UInt16.not_lt.mpr limit]

/-- The words of a batch give each of its points the reading from its own units. -/
theorem WellFormed.readPoint (h : b.WellFormed limits) (m : Image) {p : Point}
    (hp : p ∈ b.points) (checked : p.Checked) :
    b.readPoint (m.units b.slave b.function b.start b.quantity.toNat) p = m.direct p := by
  obtain ⟨place, inside⟩ := h.place hp
  rw [← place] at inside
  have own : ((m.units b.slave b.function b.start b.quantity.toNat).drop
      (p.address - b.start).toNat).take p.type.width =
        m.units p.slave p.function p.address p.width := by
    rw [← checked.width_eq, m.take_drop_units _ _ _ inside, h.slave p hp, h.function p hp,
      UInt16.ofNat_toNat, UInt16.add_comm, UInt16.sub_add_cancel]
  have enough : p.type.width ≤ ((m.units b.slave b.function b.start b.quantity.toNat).drop
      (p.address - b.start).toNat).length := by
    rw [List.length_drop, Image.length_units, ← checked.width_eq]
    omega
  have within : ¬ (p.address < b.start ∨
      (m.units b.slave b.function b.start b.quantity.toNat).length <
        (p.address - b.start).toNat) := by
    rw [not_or, UInt16.not_lt, Image.length_units]
    exact ⟨h.start_le p hp, by omega⟩
  unfold Batch.readPoint Image.direct Point.valueOf
  rw [if_neg within, ← DataType.decode_take enough, own]
  cases p.type.decode (m.units p.slave p.function p.address p.width) p.order p.bit with
  | error fault => rfl
  | ok raw => rfl

end Batch

/-- A step that succeeds on every element succeeds on the list. -/
theorem mapM_eq_ok_map {α β ε : Type} {f : α → Except ε β} {g : α → β} {l : List α}
    (h : ∀ a ∈ l, f a = .ok (g a)) : l.mapM f = .ok (l.map g) := by
  induction l with
  | nil => rfl
  | cons a rest ih =>
    rw [List.mapM_cons, h a (by simp), ih fun b hb => h b (by simp [hb])]
    rfl

/-- The words of a batch decode to the readings of its points, one by one. -/
theorem Batch.WellFormed.decode {limits : Limits} {b : Batch} (h : b.WellFormed limits) (m : Image)
    {reading : Point → Reading} (checked : ∀ p ∈ b.points, p.Checked)
    (direct : ∀ p ∈ b.points, m.direct p = .ok (reading p)) :
    b.decode (m.units b.slave b.function b.start b.quantity.toNat) =
      .ok (b.points.map reading) := by
  unfold Batch.decode
  rw [Image.length_units, if_neg (by simp)]
  apply mapM_eq_ok_map
  intro p hp
  rw [h.readPoint m hp (checked p hp), direct p hp]

/-! ## Reading all batches -/

/-- The points of a plan are the points of the channel, each once. -/
theorem Channel.points_of_plan {c : Channel} {result : Plan} (planned : c.plan = .ok result) :
    (result.batches.flatMap Batch.points).Perm c.points ∧
      ∀ b ∈ result.batches, b.WellFormed c.limits := by
  obtain ⟨sorted, stable, -, -, batches⟩ := plan_structure c.limits c.id c.points
  obtain ⟨points, each⟩ := batches result planned
  refine ⟨points ▸ stable.perm, fun b hb => ?_⟩
  obtain ⟨i, hi⟩ := List.getElem?_of_mem hb
  exact (each i b hi).2

/-- What reading the batches of a channel gives, when the devices hold `m`. -/
structure Acquired (m : Image) (c : Channel) (result : Plan) (reading : Point → Reading) :
    Prop where
  /-- The channel has a plan. -/
  planned : c.plan = .ok result
  /-- Each point has a reading from its own units alone. -/
  direct : ∀ p ∈ c.points, m.direct p = .ok (reading p)
  /-- Each batch makes a request, and the answer of a conforming device is a data unit that is
  accepted.  Each point of the batch lies in its words, counted without wrapping, and the words
  decode to the readings of the points. -/
  decoded : ∀ b ∈ result.batches, ∃ (request response : Pdu) (words : List UInt16),
    b.request = .ok request ∧
    response.bytes = m.answer b.slave request.bytes ∧
    b.parse response = .ok words ∧
    (∀ p ∈ b.points, b.start ≤ p.address ∧
      p.address.toNat - b.start.toNat + p.width ≤ words.length) ∧
    b.decode words = .ok (b.points.map reading)
  /-- Over all batches each point is read exactly once. -/
  once : (result.batches.flatMap fun b => b.points.map reading).Perm (c.points.map reading)
  /-- No two points have one id. -/
  distinct : (c.points.map Point.id).Nodup

/-- Reading the batches of an accepted channel is reading its points one by one, whatever the
devices hold. -/
theorem acquired_eq_direct {e : Config.Entry} {c : Channel} (accepted : e.toChannel = .ok c)
    (m : Image) : ∃ result reading, Acquired m c result reading := by
  obtain ⟨-, checked, distinct, result, planned⟩ := Config.Entry.of_toChannel accepted
  obtain ⟨perm, wellFormed⟩ := Channel.points_of_plan planned
  have readings : ∀ p, ∃ r, p ∈ c.points → m.direct p = .ok r := by
    intro p
    by_cases hp : p ∈ c.points
    · obtain ⟨r, direct⟩ := m.direct_isOk (checked p hp)
      exact ⟨r, fun _ => direct⟩
    · exact ⟨⟨0, .telemetry, .zero⟩, fun h => absurd h hp⟩
  choose reading direct using readings
  refine ⟨result, reading, planned, direct, ?_, ?_, distinct⟩
  · intro b hb
    have h := wellFormed b hb
    have mem : ∀ p ∈ b.points, p ∈ c.points := fun p hp =>
      perm.mem_iff.mp (List.mem_flatMap.mpr ⟨b, hb, hp⟩)
    have read : FunctionCode.isRead b.function = true := by
      obtain ⟨p, hp, -⟩ := h.start_mem
      rw [← h.function p hp]
      exact (checked p (mem p hp)).read
    have limit := UInt16.le_trans h.quantity_le h.limit_le
    have size := m.length_units b.slave b.function b.start b.quantity.toNat
    have answer := m.answer_ofWords b.slave read h.quantity_pos limit h.finish_le
    refine ⟨Pdu.ofWords b.function b.start b.quantity,
      ⟨_, length_readResponse_le size limit⟩, _, h.request read, answer.symm,
      Pdu.parseRead_readResponse read limit size (m.areUnits_units _ _ _ _) rfl, ?_,
      h.decode m (fun p hp => checked p (mem p hp)) fun p hp => direct p (mem p hp)⟩
    intro p hp
    rw [size]
    exact ⟨h.start_le p hp, (h.place hp).2⟩
  · rw [← List.map_flatMap]
    exact perm.map reading

/-- Points that share registers, bridge holes, lie in tables of bits and of words, and reach the
last address. -/
def crowdedEntry : Config.Entry where
  id := 7
  name := "crowded"
  medium := .tcp "127.0.0.1" 502
  points := [
    { id := 1, address := 103, type := .float32, order := .cdab },
    { id := 2, address := 100, type := .bool, bit := some 15 },
    { id := 3, address := 100, type := .bool, bit := some 0, transform := { reverse := true } },
    { id := 4, address := 104, type := .uint16 },
    { id := 5, function := 1, address := 9, type := .bool, category := .control },
    { id := 6, function := 1, address := 3, type := .bool, category := .control },
    { id := 7, function := 4, address := 65532, type := .int64, order := .dcba }]

/-- A crowded channel is accepted, and its batches give what its points give. -/
theorem crowded_acquired_eq_direct :
    crowdedEntry.toChannel = .ok crowdedEntry.channel ∧
      ∃ result reading,
        Acquired ⟨fun _ _ a => a = 9, fun _ _ a => a⟩ crowdedEntry.channel result reading := by
  have fit : ∀ p ∈ crowdedEntry.points, ¬ p.Unfit crowdedEntry.limits := by decide
  have planned : plan crowdedEntry.limits crowdedEntry.id crowdedEntry.points =
      .ok ⟨groupPoints crowdedEntry.limits (sortPoints crowdedEntry.points)⟩ :=
    plan_eq_ok_iff.mpr ⟨fit, rfl⟩
  have accepted : crowdedEntry.toChannel = .ok crowdedEntry.channel := by
    have passed : crowdedEntry.check = .ok () := by
      unfold Config.Entry.check
      rw [planned]
      rfl
    exact Config.Entry.toChannel_eq_ok_iff.mpr ⟨passed, by decide, rfl⟩
  exact ⟨accepted, acquired_eq_direct accepted _⟩

end Fieldbus
