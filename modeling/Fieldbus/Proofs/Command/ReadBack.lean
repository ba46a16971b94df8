import Mathlib.Data.List.Nodup
import Fieldbus.Proofs.Command.Acknowledgement
import Fieldbus.Proofs.Plan.Acquisition

/-!
# Reading back what was written

An acknowledged command is published as a value of its own, before the point is polled again.  The
next poll reads the same value, if the device holds what was written.

The two ways to that value differ.  The command decodes the words that it sent, without a bit
position.  The poll reads a bit or registers from the device, among those of a batch, and decodes
them with the bit position of the point.  They meet in the units of the point: after the write
these are the words that were sent (`Image.written`), for a bit as well, since the word of a truth
value is a zero or a one.  A point that takes commands has no bit position.
-/

namespace Fieldbus

/-! ## The words of a command -/

/-- A number has words of the type's width, and those of a truth value are bits. -/
theorem DataType.encode_isOk (type : DataType) {value : Binary64} (number : value.isNaN = false)
    (order : ByteOrder) : ∃ words, type.encode value order = .ok words ∧
      words.length = type.width ∧ (type = .bool → ∀ w ∈ words, IsBit w) := by
  unfold encode
  rw [number]
  by_cases truth : type = .bool
  · subst truth
    refine ⟨_, rfl, rfl, fun _ w hw => ?_⟩
    rw [List.mem_singleton.mp hw]
    simp only [toPacked, bounds?]
    split
    · exact .inl rfl
    · exact .inr rfl
  · simp [truth]

/-- The ways to write a point, with the table that the point is in. -/
theorem Point.write_cases {p : Point} (writable : p.isWritable = true) :
    (p.function = FunctionCode.readCoils ∧ p.type = .bool ∧
        p.writeFunction? = some FunctionCode.writeSingleCoil) ∨
      p.function = FunctionCode.readHoldingRegisters ∧ p.bit = none ∧
        p.writeFunction? = some (if p.width = 1 then FunctionCode.writeSingleRegister
          else FunctionCode.writeMultipleRegisters) := by
  unfold isWritable at writable
  unfold writeFunction? at writable ⊢
  split at writable
  next => cases writable
  next command =>
    rw [if_neg command]
    split at writable
    next coils =>
      split at writable
      next truth => exact .inl ⟨coils, truth, by simp [coils, truth]⟩
      next => cases writable
    next notCoils =>
      split at writable
      next holding =>
        split at writable
        next => cases writable
        next bit =>
          refine .inr ⟨holding, by simpa using bit, ?_⟩
          rw [if_neg notCoils, if_pos holding, if_neg bit]
          split
          · rfl
          · rfl
      next => cases writable

/-! ## What a write leaves on a device -/

/-- What the devices hold after one of them has carried out a write. -/
def Image.after (m : Image) (slave : UInt8) : Effect → Image
  | .coil address on =>
    { m with bit := fun s f a =>
        if s = slave ∧ f = FunctionCode.readCoils ∧ a = address then on else m.bit s f a }
  | .register address value =>
    { m with register := fun s f a =>
        if s = slave ∧ f = FunctionCode.readHoldingRegisters ∧ a = address then value
        else m.register s f a }
  | .registers address values =>
    { m with register := fun s f a =>
        if s = slave ∧ f = FunctionCode.readHoldingRegisters ∧ address ≤ a then
          values.getD (a.toNat - address.toNat) (m.register s f a)
        else m.register s f a }

namespace Effect

@[simp] theorem ofRequest?_writeCoil (address : UInt16) (on : Bool) :
    ofRequest? (Pdu.writeCoil address on).bytes = some (.coil address on) := by
  cases on with
  | true => simp [ofRequest?, Pdu.writeCoil, Pdu.ofWords, wordBytes, Pdu.coilWord]
  | false => simp [ofRequest?, Pdu.writeCoil, Pdu.ofWords, wordBytes, Pdu.coilWord]

@[simp] theorem ofRequest?_writeRegister (address value : UInt16) :
    ofRequest? (Pdu.writeRegister address value).bytes = some (.register address value) := by
  simp [ofRequest?, Pdu.writeRegister, Pdu.ofWords, wordBytes, FunctionCode.writeSingleRegister,
    FunctionCode.writeSingleCoil]

/-- A device carries out the write of consecutive registers. -/
theorem ofRequest?_writeRegisters {address : UInt16} {values : List UInt16} {pdu : Pdu}
    (made : Pdu.writeRegisters address values = .ok pdu) :
    ofRequest? pdu.bytes = some (.registers address values) := by
  unfold Pdu.writeRegisters at made
  split at made
  next bounds =>
    cases made
    have size : values.length ≤ 123 := bounds.2
    have positive := List.length_pos_iff.mpr bounds.1
    have quantity : (UInt16.ofNat values.length).toNat = values.length :=
      UInt16.toNat_ofNat_of_lt (by simp only [UInt16.size]; omega)
    have count : (UInt8.ofNat (2 * values.length)).toNat = 2 * values.length :=
      UInt8.toNat_ofNat_of_lt (by simp only [UInt8.size]; omega)
    simp only [ofRequest?, wordBytes, List.cons_append, List.nil_append, wordOf_bytes,
      quantity, count, Pdu.length_flatMap_wordBytes, wordsOf_flatMap_wordBytes]
    rw [if_pos ⟨trivial, by omega, trivial, trivial⟩]
  next => cases made

end Effect

/-! ## The request of a command -/

namespace WriteRequest

variable {p : Point}

theorem forPoint_coil (function : p.writeFunction? = some FunctionCode.writeSingleCoil)
    (first : UInt16) (rest : List UInt16) :
    forPoint p (first :: rest) = .ok ⟨FunctionCode.writeSingleCoil, p.address,
      Pdu.coilWord (first ≠ 0), Pdu.writeCoil p.address (first ≠ 0)⟩ := by
  simp [forPoint, function]

theorem forPoint_register (function : p.writeFunction? = some FunctionCode.writeSingleRegister)
    (first : UInt16) (rest : List UInt16) :
    forPoint p (first :: rest) = .ok ⟨FunctionCode.writeSingleRegister, p.address, first,
      Pdu.writeRegister p.address first⟩ := by
  simp [forPoint, function, FunctionCode.writeSingleRegister, FunctionCode.writeSingleCoil]

theorem forPoint_registers (function : p.writeFunction? = some FunctionCode.writeMultipleRegisters)
    {words : List UInt16} (nonempty : words ≠ [])
    (bound : words.length ≤ FunctionCode.maxWriteRegisters) :
    ∃ request, forPoint p words = .ok request ∧
      Pdu.writeRegisters p.address words = .ok request.pdu := by
  obtain ⟨first, rest, rfl⟩ := List.exists_cons_of_ne_nil nonempty
  obtain ⟨pdu, made⟩ : ∃ pdu, Pdu.writeRegisters p.address (first :: rest) = .ok pdu := by
    unfold Pdu.writeRegisters
    rw [dif_pos ⟨nonempty, bound⟩]
    exact ⟨_, rfl⟩
  refine ⟨⟨FunctionCode.writeMultipleRegisters, p.address, UInt16.ofNat (rest.length + 1), pdu⟩,
    ?_, made⟩
  simp only [forPoint, function, made]
  rfl

end WriteRequest

/-! ## The units after a write -/

namespace Image

variable (m : Image) (slave : UInt8) (address : UInt16)

theorem units_after_coil (on : Bool) :
    (m.after slave (.coil address on)).units slave FunctionCode.readCoils address 1 =
      [if on then 1 else 0] := by
  simp [units, unit, after, FunctionCode.isBit]

theorem units_after_register (value : UInt16) :
    (m.after slave (.register address value)).units slave FunctionCode.readHoldingRegisters
      address 1 = [value] := by
  have registers : FunctionCode.isBit FunctionCode.readHoldingRegisters = false := rfl
  simp [units, unit, after, registers]

theorem units_after_registers {values : List UInt16}
    (range : address.toNat + values.length ≤ 0x10000) :
    (m.after slave (.registers address values)).units slave FunctionCode.readHoldingRegisters
      address values.length = values := by
  apply List.ext_getElem
  · simp
  · intro i h₁ h₂
    have registers : FunctionCode.isBit FunctionCode.readHoldingRegisters = false := rfl
    have small : (UInt16.ofNat i).toNat = i :=
      UInt16.toNat_ofNat_of_lt (by simp only [UInt16.size]; omega)
    have place : (address + UInt16.ofNat i).toNat = address.toNat + i := by
      rw [UInt16.toNat_add, small]
      omega
    have behind : address ≤ address + UInt16.ofNat i := by
      rw [UInt16.le_iff_toNat_le, place]
      omega
    simp only [units, unit, after, registers, List.getElem_map, List.getElem_range]
    rw [if_neg (by decide), if_pos ⟨trivial, trivial, behind⟩, place, Nat.add_sub_cancel_left,
      List.getD_eq_getElem _ _ h₂]

/-- The request that writes words to a point can be made.  A device that carries it out holds the
words as the units of the point. -/
theorem written {p : Point} (writable : p.isWritable = true) (fits : p.finish ≤ 0x10000)
    {words : List UInt16} (size : words.length = p.type.width)
    (bits : p.type = .bool → ∀ w ∈ words, IsBit w) :
    ∃ request effect, WriteRequest.forPoint p words = .ok request ∧
      Effect.ofRequest? request.pdu.bytes = some effect ∧
      ∀ m : Image, (m.after p.slave effect).units p.slave p.function p.address p.width = words := by
  have some_words : words ≠ [] := by
    rintro rfl
    have := p.type.width_pos
    simp at size
    omega
  obtain ⟨first, rest, rfl⟩ := List.exists_cons_of_ne_nil some_words
  rcases p.write_cases writable with ⟨coils, truth, function⟩ | ⟨holding, -, function⟩
  · -- A bit: the coil is set by the word of the truth value, which is the unit read back.
    have alone : rest = [] := by
      rw [truth] at size
      simpa [DataType.width] using size
    subst alone
    have width : p.width = 1 := by
      unfold Point.width
      rw [coils]
      rfl
    refine ⟨_, _, WriteRequest.forPoint_coil function first [], Effect.ofRequest?_writeCoil _ _,
      fun m => ?_⟩
    rw [coils, width, units_after_coil]
    rcases bits truth first (by simp) with rfl | rfl
    · rfl
    · rfl
  · -- Registers: one or several, by the width of the point.
    have width : p.width = p.type.width := by
      unfold Point.width
      rw [holding]
      rfl
    rw [holding]
    by_cases single : p.width = 1
    · have alone : rest = [] := by
        rw [← width, single] at size
        simpa using size
      subst alone
      rw [if_pos single] at function
      refine ⟨_, _, WriteRequest.forPoint_register function first [],
        Effect.ofRequest?_writeRegister _ _, fun m => ?_⟩
      rw [single, units_after_register]
    · rw [if_neg single] at function
      have bound : (first :: rest).length ≤ FunctionCode.maxWriteRegisters := by
        rw [size]
        cases p.type with
        | _ => decide
      obtain ⟨request, made, pdu⟩ := WriteRequest.forPoint_registers function some_words bound
      refine ⟨request, _, made, Effect.ofRequest?_writeRegisters pdu, fun m => ?_⟩
      rw [width, ← size]
      apply units_after_registers
      rw [size, ← width]
      exact fits

end Image

/-! ## The value that is read back -/

/-- A point that takes commands has no bit position. -/
theorem Point.Checked.bit_eq_none {p : Point} (h : p.Checked) (writable : p.isWritable = true) :
    p.bit = none := by
  rcases p.write_cases writable with ⟨coils, -⟩ | ⟨-, none, -⟩
  · cases given : p.bit with
    | none => rfl
    | some bit =>
      have register := (h.bit_placed bit given).2
      rw [coils] at register
      cases register
  · exact none

/-- The units of a point give the value that the command for them is acknowledged with. -/
theorem Image.direct_eq_acknowledged {m : Image} {p : Point} {words : List UInt16}
    (plain : p.bit = none) (size : p.type.width ≤ words.length)
    (held : m.units p.slave p.function p.address p.width = words) (value : Binary64) :
    m.direct p = .ok ⟨p.id, p.category, p.acknowledged words value⟩ := by
  have inside : ∀ b : UInt8, none = some b → b ≤ 15 := nofun
  obtain ⟨raw, decoded⟩ := DataType.decode_isOk size p.order inside
  simp only [Image.direct, held, plain, Point.acknowledged, decoded]
  rfl

/-- A batch is read by a conforming exchange. -/
theorem Batch.WellFormed.exchange {limits : Limits} {b : Batch} (h : b.WellFormed limits)
    (read : FunctionCode.isRead b.function = true) (m : Image) :
    ∃ request response : Pdu, b.request = .ok request ∧
      response.bytes = m.answer b.slave request.bytes ∧
      b.parse response = .ok (m.units b.slave b.function b.start b.quantity.toNat) := by
  have limit := UInt16.le_trans h.quantity_le h.limit_le
  have size := m.length_units b.slave b.function b.start b.quantity.toNat
  refine ⟨_, ⟨_, length_readResponse_le size limit⟩, h.request read, ?_, ?_⟩
  · exact (m.answer_ofWords b.slave read h.quantity_pos limit h.finish_le).symm
  · exact Pdu.parseRead_readResponse read limit size (m.areUnits_units _ _ _ _) rfl

theorem Image.direct_point {m : Image} {p : Point} {r : Reading} (h : m.direct p = .ok r) :
    r.point = p.id := by
  unfold Image.direct at h
  cases decoded : p.type.decode (m.units p.slave p.function p.address p.width) p.order p.bit with
  | error fault =>
    rw [decoded] at h
    cases h
  | ok raw =>
    rw [decoded] at h
    cases h
    rfl

/-- A batch gives a point the reading from its own units, and gives no other one under its id. -/
theorem Batch.WellFormed.reading {limits : Limits} {b : Batch} (h : b.WellFormed limits)
    (checked : ∀ p ∈ b.points, p.Checked) (distinct : ∀ p ∈ b.points, ∀ q ∈ b.points,
      p.id = q.id → p = q) {m : Image} {p : Point} (hp : p ∈ b.points) {r : Reading}
    (direct : m.direct p = .ok r) :
    ∃ readings, b.decode (m.units b.slave b.function b.start b.quantity.toNat) = .ok readings ∧
      ∀ x, x ∈ readings ∧ x.point = p.id ↔ x = r := by
  have some_reading : ∀ q, ∃ x, q ∈ b.points → m.direct q = .ok x := by
    intro q
    by_cases hq : q ∈ b.points
    · obtain ⟨x, own⟩ := m.direct_isOk (checked q hq)
      exact ⟨x, fun _ => own⟩
    · exact ⟨r, fun h => absurd h hq⟩
  choose reading own using some_reading
  refine ⟨_, h.decode m checked fun q hq => own q hq, fun x => ⟨?_, ?_⟩⟩
  · rintro ⟨hx, same⟩
    obtain ⟨q, hq, rfl⟩ := List.mem_map.mp hx
    have point := Image.direct_point (own q hq)
    have here : q = p := distinct q hq p hp (point.symm.trans same)
    subst here
    exact Except.ok.inj ((own q hq).symm.trans direct)
  · rintro rfl
    have same : reading p = x := Except.ok.inj ((own p hp).symm.trans direct)
    exact ⟨List.mem_map.mpr ⟨p, hp, same⟩, Image.direct_point direct⟩

/-! ## What a command publishes -/

theorem Channel.point?_eq_some {c : Channel} (distinct : (c.points.map Point.id).Nodup) {p : Point}
    (hp : p ∈ c.points) : c.point? p.id = some p := by
  have reversed : (c.points.reverse.map Point.id).Nodup := by
    rw [List.map_reverse]
    exact List.nodup_reverse.mpr distinct
  rw [Channel.point?, List.findRev?_eq_find?_reverse]
  exact (Table.find?_key_eq_some_iff Point.id reversed).mpr ⟨List.mem_reverse.mpr hp, rfl⟩

namespace Command

open Activity (Only ensures_bind ensures_ask_bind performs_pure ask)

/-- Nothing else is published than this. -/
def Publishing (writes : List StoreWrite) : Rules where
  given := fun _ => True
  may := fun _ e => ∀ published, e.step = .publish published → published = writes

theorem publishing_of_isInner {writes : List StoreWrite} {past : List Event} {e : Event}
    (inner : e.step.IsInner) : (Publishing writes).may past e := by
  intro published step
  rw [step] at inner
  exact inner.elim

theorem after_inner {β γ : Type} {a : Activity β} {f : β → Activity γ} {writes : List StoreWrite}
    {seen : Event} {post : List Event → γ → Prop} {past : List Event}
    (inner : a.Only Step.IsInner) (start : seen ∈ past)
    (rest : ∀ v past, seen ∈ past → (f v).Ensures (Publishing writes) post past) :
    (a >>= f).Ensures (Publishing writes) post past :=
  inner.then start (fun _ _ inner kept =>
    ⟨publishing_of_isInner inner, List.mem_append_left _ kept⟩) rest

theorem before_write {β γ : Type} {a : Activity β} {f : β → Activity γ} {writes : List StoreWrite}
    {post : List Event → γ → Prop} {past : List Event} (inner : a.Only Step.IsInner)
    (rest : ∀ v past, (f v).Ensures (Publishing writes) post past) :
    (a >>= f).Ensures (Publishing writes) post past := by
  have kept : a.Ensures (Publishing writes) (fun _ _ => True) past :=
    inner.ensures trivial fun _ _ inner _ => ⟨publishing_of_isInner inner, trivial⟩
  exact (ensures_bind a past).mpr (kept.mono fun past v _ => rest v past)

/-- A command that is acknowledged has written its words and has published their value. -/
theorem send_publishing (command : Command) (h : ChannelHandle) (p : Point) (words : List UInt16)
    (past : List Event) :
    (command.send h p words).Ensures
      (Publishing [ackWrite h.channel.id p (p.acknowledged words command.value)])
      (fun past status => status = .acknowledged →
        ⟨.write h.link p words, .ok ()⟩ ∈ past ∧
        ⟨.publish [ackWrite h.channel.id p (p.acknowledged words command.value)], ()⟩ ∈ past)
      past := by
  refine before_write (report_only ..) fun _ past => ?_
  refine before_write (.ask trivial) fun started past => ?_
  refine before_write (.ask trivial) fun _ past => ?_
  refine ensures_ask_bind.mpr fun result _ => ⟨by simp [Publishing], ?_⟩
  have wrote : (⟨.write h.link p words, result⟩ : Event) ∈
      past ++ [⟨.write h.link p words, result⟩] := by simp
  have captured : (some <$> ask (.frames h.link)).Only Step.IsInner :=
    .bind (.ask trivial) fun _ => trivial
  have skipped : (pure none : Activity (Option Log.Frames)).Only Step.IsInner := trivial
  cases result with
  | error fault =>
    have refused : statusAfter (.error fault) ≠ .acknowledged := by
      show (if fault.isTimeout then CommandStatus.timedOut fault else .failed (.exchange fault)) ≠
        .acknowledged
      split
      · simp
      · simp
    dsimp only
    split
    all_goals
      refine after_inner (by assumption) wrote fun frames past wrote => ?_
      refine after_inner (.ask trivial) wrote fun _ past wrote => ?_
      refine after_inner (.ask trivial) wrote fun ended past wrote => ?_
      refine after_inner (.ask trivial) wrote fun time past wrote => ?_
      refine after_inner (.ask trivial) wrote fun _ past wrote => ?_
      exact fun acknowledged => absurd acknowledged refused
  | ok _ =>
    dsimp only
    split
    all_goals
      refine after_inner (by assumption) wrote fun frames past wrote => ?_
      refine after_inner (.ask trivial) wrote fun _ past wrote => ?_
      refine after_inner (.ask trivial) wrote fun ended past wrote => ?_
      refine after_inner (.ask trivial) wrote fun time past wrote => ?_
      refine after_inner (.ask trivial) wrote fun _ past wrote => ?_
      refine ensures_ask_bind.mpr fun _ _ => ⟨?_, fun _ => ⟨List.mem_append_left _ wrote, by simp⟩⟩
      intro published step
      cases step
      rfl

/-- The command is taken to its point, unless the channel refuses commands. -/
theorem aim_eq_ok {command : Command} {c : Channel} {p : Point} {words : List UInt16}
    (found : c.point? command.point = some p) (writable : p.isWritable = true)
    (encoded : p.type.encode command.value p.order = .ok words) {state : ChannelState}
    (taken : state.rejectsCommands = false) : command.aim c state = .ok (p, words) := by
  simp [aim, found, writable, taken, encoded]

/-- A channel that refuses commands takes none to a point. -/
theorem rejectsCommands_of_aim {command : Command} {c : Channel} {state : ChannelState}
    {target : Point × List UInt16} (aimed : command.aim c state = .ok target) :
    state.rejectsCommands = false := by
  unfold aim at aimed
  split at aimed
  next => cases aimed
  next =>
    split at aimed
    next => cases aimed
    next =>
      split at aimed
      next => cases aimed
      next taken => simpa using taken

/-- A command that found its channel asks for the state, and is refused or sent. -/
theorem dispatch_cases {command : Command} {h : ChannelHandle} {events : List Event}
    {status : CommandStatus}
    (run : command.dispatch.Performs (⟨.find command.channel, some h⟩ :: events) (.done status)) :
    ∃ state rest, events = ⟨.state h.link, state⟩ :: rest ∧
      ((∃ cause, command.aim h.channel state = .error cause ∧ rest = [] ∧
          status = .failed cause) ∨
        ∃ p words, command.aim h.channel state = .ok (p, words) ∧
          (command.send h p words).Performs rest (.done status)) := by
  obtain _ | run := run
  obtain _ | @⟨_, _, state, rest, _, run⟩ := run
  refine ⟨state, rest, rfl, ?_⟩
  dsimp only [Activity.bind] at run
  cases aimed : command.aim h.channel state with
  | error cause =>
    rw [aimed] at run
    obtain ⟨rfl, rfl⟩ := performs_pure.mp run
    exact .inl ⟨cause, rfl, rfl, rfl⟩
  | ok target =>
    rw [aimed] at run
    exact .inr ⟨target.1, target.2, rfl, run⟩

/-- A command over a handle that is acknowledged was aimed at a point, with words. -/
theorem dispatch_publishing {command : Command} {h : ChannelHandle} {p : Point}
    {words : List UInt16}
    (aimed : ∀ state, state.rejectsCommands = false → command.aim h.channel state = .ok (p, words))
    {events : List Event}
    (run : command.dispatch.Performs (⟨.find command.channel, some h⟩ :: events)
      (.done .acknowledged)) :
    ⟨.write h.link p words, .ok ()⟩ ∈ events ∧ ∀ writes, ⟨.publish writes, ()⟩ ∈ events ↔
      writes = [ackWrite h.channel.id p (p.acknowledged words command.value)] := by
  obtain ⟨state, rest, rfl, ⟨cause, -, -, refused⟩ | ⟨target, sent, taken, run⟩⟩ :=
    dispatch_cases run
  · cases refused
  · obtain ⟨rfl, rfl⟩ : p = target ∧ words = sent :=
      Prod.mk.inj (Except.ok.inj ((aimed state (rejectsCommands_of_aim taken)).symm.trans taken))
    have ensured := send_publishing command h p words []
    obtain ⟨wrote, published⟩ := run.post ensured (fun _ _ => trivial) rfl
    refine ⟨List.mem_cons_of_mem _ wrote, fun writes => ⟨fun member => ?_, ?_⟩⟩
    · rcases List.mem_cons.mp member with first | member
      · cases first
      · obtain ⟨earlier, later, rfl⟩ := List.append_of_mem member
        exact run.may ensured (fun _ _ => trivial) writes rfl
    · rintro rfl
      exact List.mem_cons_of_mem _ published

end Command

/-! ## Agreement -/

/-- What a command publishes when it is acknowledged, and what the next poll of its point reads
from a device that has carried it out. -/
structure ReadBack (c : Channel) (p : Point) (command : Command) (words : List UInt16)
    (value : Binary64) : Prop where
  /-- The words are those of the commanded value. -/
  encoded : p.type.encode command.value p.order = .ok words
  /-- The command is taken to the point with these words, unless the channel refuses commands. -/
  aimed : ∀ state, state.rejectsCommands = false → command.aim c state = .ok (p, words)
  /-- If it is acknowledged, it has written the words and has published the value, and nothing
  else. -/
  published : ∀ (link : LinkId) (events : List Event),
    command.dispatch.Performs (⟨.find command.channel, some ⟨c, link⟩⟩ :: events)
        (.done .acknowledged) →
      ⟨.write link p words, .ok ()⟩ ∈ events ∧
        ∀ writes, ⟨.publish writes, ()⟩ ∈ events ↔ writes = [ackWrite c.id p value]
  /-- The write makes a request.  Once a device has carried it out, each batch with the point
  makes a request, the answer of a conforming device is accepted, and among the readings of the
  batch the one of the point has the published value. -/
  polled : ∃ request effect, WriteRequest.forPoint p words = .ok request ∧
    Effect.ofRequest? request.pdu.bytes = some effect ∧
    ∀ (m : Image) (result : Plan), c.plan = .ok result → ∀ b ∈ result.batches, p ∈ b.points →
      ∃ (read response : Pdu) (units : List UInt16) (readings : List Reading),
        b.request = .ok read ∧
        response.bytes = (m.after p.slave effect).answer b.slave read.bytes ∧
        b.parse response = .ok units ∧
        b.decode units = .ok readings ∧
        ∀ r, r ∈ readings ∧ r.point = p.id ↔ r = ⟨p.id, p.category, value⟩

/-- The value that an acknowledged command publishes is the one that the next poll reads. -/
theorem command_readBack {e : Config.Entry} {c : Channel} (accepted : e.toChannel = .ok c)
    {p : Point} (hp : p ∈ c.points) (writable : p.isWritable = true) {command : Command}
    (target : command.point = p.id) (number : command.value.isNaN = false) :
    ∃ words value, ReadBack c p command words value := by
  obtain ⟨-, checked, distinct, result, planned⟩ := Config.Entry.of_toChannel accepted
  have fits : p.finish ≤ 0x10000 := by
    have := (plan_eq_ok_iff.mp planned).1 p hp
    simp only [Point.Unfit, not_or, not_lt] at this
    exact this.2
  obtain ⟨words, encoded, size, bits⟩ := p.type.encode_isOk number p.order
  obtain ⟨request, effect, made, carried, held⟩ := Image.written writable fits size bits
  have found : c.point? command.point = some p := by
    rw [target]
    exact Channel.point?_eq_some distinct hp
  have aimed : ∀ state, state.rejectsCommands = false → command.aim c state = .ok (p, words) :=
    fun state taken => Command.aim_eq_ok found writable encoded taken
  refine ⟨words, p.acknowledged words command.value, encoded, aimed, ?_, request, effect, made,
    carried, ?_⟩
  · intro link events run
    exact Command.dispatch_publishing (h := ⟨c, link⟩) aimed run
  · intro m result planned b hb own
    obtain ⟨perm, wellFormed⟩ := Channel.points_of_plan planned
    have mem : ∀ q ∈ b.points, q ∈ c.points := fun q hq =>
      perm.mem_iff.mp (List.mem_flatMap.mpr ⟨b, hb, hq⟩)
    have h := wellFormed b hb
    have read : FunctionCode.isRead b.function = true := by
      rw [← h.function p own]
      exact (checked p hp).read
    obtain ⟨read, response, asked, answered, parsed⟩ := h.exchange read (m.after p.slave effect)
    have direct := Image.direct_eq_acknowledged ((checked p hp).bit_eq_none writable) size.ge
      (held m) command.value
    obtain ⟨readings, decoded, only⟩ := h.reading (fun q hq => checked q (mem q hq))
      (fun q hq r hr => List.inj_on_of_nodup_map distinct (mem q hq) (mem r hr)) own direct
    exact ⟨read, response, _, readings, asked, answered, parsed, decoded, only⟩

/-- A set value of two swapped registers, in a batch with a measurement before it, and a coil. -/
def commandedEntry : Config.Entry where
  id := 7
  name := "commanded"
  medium := .tcp "127.0.0.1" 502
  points := [
    { id := 1, address := 100, type := .uint16 },
    { id := 2, address := 102, category := .adjustment, type := .int32, order := .dcba },
    { id := 3, function := 1, address := 9, category := .control, type := .bool,
      transform := { reverse := true } }]

/-- Minus three and a half for the set value, which holds whole numbers. -/
def commandedEntry.command : Command := ⟨7, 2, ⟨0xC00C000000000000⟩, "set"⟩

theorem commanded_readBack :
    commandedEntry.toChannel = .ok commandedEntry.channel ∧
      commandedEntry.points[1] ∈ commandedEntry.channel.points ∧
      commandedEntry.points[1].isWritable = true ∧
      commandedEntry.command.point = commandedEntry.points[1].id ∧
      commandedEntry.command.value.isNaN = false ∧
      ∃ words value, ReadBack commandedEntry.channel commandedEntry.points[1]
        commandedEntry.command words value := by
  have fit : ∀ p ∈ commandedEntry.points, ¬ p.Unfit commandedEntry.limits := by decide
  have planned : plan commandedEntry.limits commandedEntry.id commandedEntry.points =
      .ok ⟨groupPoints commandedEntry.limits (sortPoints commandedEntry.points)⟩ :=
    plan_eq_ok_iff.mpr ⟨fit, rfl⟩
  have accepted : commandedEntry.toChannel = .ok commandedEntry.channel := by
    have passed : commandedEntry.check = .ok () := by
      unfold Config.Entry.check
      rw [planned]
      rfl
    exact Config.Entry.toChannel_eq_ok_iff.mpr ⟨passed, by decide, rfl⟩
  have listed : commandedEntry.points[1] ∈ commandedEntry.channel.points := by
    show commandedEntry.points[1] ∈ commandedEntry.points
    exact List.getElem_mem _
  have writable : commandedEntry.points[1].isWritable = true := by decide
  have number : commandedEntry.command.value.isNaN = false := by decide
  exact ⟨accepted, listed, writable, rfl, number,
    command_readBack accepted listed writable rfl number⟩

end Fieldbus
