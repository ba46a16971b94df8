import Fieldbus.Proofs.Command.ReadBack
import Fieldbus.Proofs.Pdu.Conformance

/-!
# What a write asks for, and what confirms it

A point is written by one of three functions, and each has a payload of its own: the word of a coil,
one register, or a count and as many registers.  `WriteRequest.Means` says what words mean for a
point, apart from any bytes, and `Effect.ofRequest?` what a device reads from the bytes of a request.
A request says what its words mean (`WriteRequest.forPoint_sound`).

A device confirms a write by sending the beginning of the request back: the function and the two
words behind it.  These are all five bytes of the short requests, and of the long one all that comes
before its payload.  So one comparison serves all functions, and it accepts these bytes alone
(`Pdu.parseWrite_eq_ok_iff`).
-/

namespace Fieldbus

/-! ## Confirmations -/

namespace Pdu

variable {p : Pdu} {fc : UInt8} {address value : UInt16}

/-- Two words have the same bytes only if they are the same. -/
theorem wordBytes_eq_iff {high low : UInt8} {w : UInt16} :
    wordOf high low = w ↔ [high, low] = wordBytes w := by
  constructor
  · rintro rfl
    simp [wordBytes]
  · intro same
    obtain ⟨rfl, low⟩ := List.cons.inj same
    obtain ⟨rfl, -⟩ := List.cons.inj low
    exact wordOf_bytes w

/-- A confirmation is the function and both words, and nothing else is one. -/
theorem parseWrite_eq_ok_iff (unmarked : fc ≠ fc ||| FunctionCode.exceptionBit) :
    p.parseWrite fc address value = .ok () ↔ p.bytes = (ofWords fc address value).bytes := by
  constructor
  · intro accepted
    cases expected : p.expectFunction fc with
    | error fault =>
      rw [parseWrite, expected] at accepted
      cases accepted
    | ok _ =>
      obtain ⟨head, -⟩ := expectFunction_eq_ok_iff.mp expected
      rw [parseWrite, expected] at accepted
      dsimp only [bind, Except.bind] at accepted
      split at accepted
      next first a b c d shape =>
        split at accepted
        next => cases accepted
        next same =>
          simp only [not_or, ne_eq, Decidable.not_not, wordBytes_eq_iff] at same
          rw [shape] at head
          cases head
          have bytes : [fc, a, b, c, d] = fc :: ([a, b] ++ [c, d]) := rfl
          rw [shape, bytes, same.1, same.2]
          rfl
      next => cases accepted
  · intro shape
    have expected : p.expectFunction fc = .ok () :=
      expectFunction_eq_ok_iff.mpr ⟨by rw [shape]; rfl, unmarked⟩
    rw [parseWrite, expected, shape]
    simp [ofWords, wordBytes, bind, Except.bind]

/-- The request to set consecutive registers begins with its address and their number. -/
theorem take_writeRegisters {values : List UInt16} {pdu : Pdu}
    (made : writeRegisters address values = .ok pdu) :
    pdu.bytes.take 5 = (ofWords FunctionCode.writeMultipleRegisters address
      (UInt16.ofNat values.length)).bytes := by
  unfold writeRegisters at made
  split at made
  next =>
    cases made
    rfl
  next => cases made

end Pdu

/-! ## What words mean for a point -/

namespace WriteRequest

/-- What a device is to do when words are written to a point, by the function that writes it. -/
inductive Means (p : Point) : List UInt16 → Effect → Prop where
  /-- The coil is switched on by any word but zero. -/
  | coil {first : UInt16} {rest : List UInt16} :
    p.writeFunction? = some FunctionCode.writeSingleCoil →
    Means p (first :: rest) (.coil p.address (first ≠ 0))
  | register {first : UInt16} {rest : List UInt16} :
    p.writeFunction? = some FunctionCode.writeSingleRegister →
    Means p (first :: rest) (.register p.address first)
  | registers {words : List UInt16} :
    p.writeFunction? = some FunctionCode.writeMultipleRegisters →
    Means p words (.registers p.address words)

/-- A request that says what its words mean, and that is confirmed by its own beginning alone. -/
structure Sound (p : Point) (words : List UInt16) (r : WriteRequest) : Prop where
  function : r.pdu.function? = p.writeFunction?
  /-- The data unit fits into a frame. -/
  size : r.pdu.size ≤ 253
  effect : ∃ effect, Means p words effect ∧ Effect.ofRequest? r.pdu.bytes = some effect
  confirmed : ∀ response : Pdu, r.check response = .ok () ↔ response.bytes = r.pdu.bytes.take 5

variable {p : Point} {words : List UInt16} {r : WriteRequest}

/-- The functions that write points. -/
theorem writeFunction?_cases {fc : UInt8} (function : p.writeFunction? = some fc) :
    fc = FunctionCode.writeSingleCoil ∨ fc = FunctionCode.writeSingleRegister ∨
      fc = FunctionCode.writeMultipleRegisters := by
  have writable : p.isWritable = true := by simp [Point.isWritable, function]
  rcases p.write_cases writable with ⟨-, -, coil⟩ | ⟨-, -, register⟩
  · rw [function] at coil
    exact .inl (Option.some.inj coil)
  · rw [function] at register
    cases Option.some.inj register
    split
    · exact .inr (.inl rfl)
    · exact .inr (.inr rfl)

/-- The requests that are made, one for each function. -/
theorem forPoint_cases (made : forPoint p words = .ok r) :
    (∃ first rest, words = first :: rest ∧
        p.writeFunction? = some FunctionCode.writeSingleCoil ∧
        r = ⟨FunctionCode.writeSingleCoil, p.address, Pdu.coilWord (first ≠ 0),
          Pdu.writeCoil p.address (first ≠ 0)⟩) ∨
      (∃ first rest, words = first :: rest ∧
        p.writeFunction? = some FunctionCode.writeSingleRegister ∧
        r = ⟨FunctionCode.writeSingleRegister, p.address, first,
          Pdu.writeRegister p.address first⟩) ∨
      ∃ pdu, Pdu.writeRegisters p.address words = .ok pdu ∧
        p.writeFunction? = some FunctionCode.writeMultipleRegisters ∧
        r = ⟨FunctionCode.writeMultipleRegisters, p.address, UInt16.ofNat words.length, pdu⟩ := by
  cases function : p.writeFunction? with
  | none =>
    simp only [forPoint, function] at made
    cases made
  | some fc =>
    cases words with
    | nil =>
      simp only [forPoint, function] at made
      cases made
    | cons first rest =>
      rcases writeFunction?_cases function with rfl | rfl | rfl
      · rw [forPoint_coil function] at made
        exact .inl ⟨first, rest, rfl, rfl, (Except.ok.inj made).symm⟩
      · rw [forPoint_register function] at made
        exact .inr (.inl ⟨first, rest, rfl, rfl, (Except.ok.inj made).symm⟩)
      · cases unit : Pdu.writeRegisters p.address (first :: rest) with
        | error fault =>
          simp only [forPoint, function, unit] at made
          cases made
        | ok pdu =>
          simp only [forPoint, function, unit] at made
          cases made
          exact .inr (.inr ⟨pdu, rfl, rfl, rfl⟩)

/-- A response is accepted if it is the beginning of the request, where the request begins with its
function, its address and its echo. -/
theorem check_eq_ok_iff (write : r.function = FunctionCode.writeSingleCoil ∨
      r.function = FunctionCode.writeSingleRegister ∨
      r.function = FunctionCode.writeMultipleRegisters)
    (begins : r.pdu.bytes.take 5 = (Pdu.ofWords r.function r.address r.echo).bytes)
    (response : Pdu) : r.check response = .ok () ↔ response.bytes = r.pdu.bytes.take 5 := by
  have unmarked : r.function ≠ r.function ||| FunctionCode.exceptionBit := by
    rcases write with function | function | function
    · rw [function]
      decide
    · rw [function]
      decide
    · rw [function]
      decide
  rw [begins]
  exact Pdu.parseWrite_eq_ok_iff unmarked

theorem forPoint_sound (made : forPoint p words = .ok r) : Sound p words r := by
  have size := r.pdu.fits
  rcases forPoint_cases made with ⟨first, rest, rfl, function, rfl⟩ |
    ⟨first, rest, rfl, function, rfl⟩ | ⟨pdu, unit, function, rfl⟩
  · exact ⟨function.symm, size, ⟨_, .coil function, Effect.ofRequest?_writeCoil _ _⟩,
      check_eq_ok_iff (.inl rfl) rfl⟩
  · exact ⟨function.symm, size, ⟨_, .register function, Effect.ofRequest?_writeRegister _ _⟩,
      check_eq_ok_iff (.inr (.inl rfl)) rfl⟩
  · have begins := Pdu.take_writeRegisters unit
    have head : pdu.function? = some FunctionCode.writeMultipleRegisters := by
      have first := congrArg List.head? begins
      rwa [List.head?_take, if_neg (by decide)] at first
    exact ⟨head.trans function.symm, size,
      ⟨_, .registers function, Effect.ofRequest?_writeRegisters unit⟩,
      check_eq_ok_iff (.inr (.inr rfl)) begins⟩

/-- Words of the width of a point that takes commands make a request. -/
theorem forPoint_isOk (writable : p.isWritable = true) (size : words.length = p.type.width) :
    ∃ r, forPoint p words = .ok r := by
  have positive := p.type.width_pos
  obtain ⟨first, rest, rfl⟩ : ∃ first rest, words = first :: rest :=
    List.exists_cons_of_length_pos (by omega)
  rcases p.write_cases writable with ⟨-, -, function⟩ | ⟨-, -, function⟩
  · exact ⟨_, forPoint_coil function first rest⟩
  · split at function
    next => exact ⟨_, forPoint_register function first rest⟩
    next =>
      have bound : (first :: rest).length ≤ FunctionCode.maxWriteRegisters := by
        rw [size]
        cases p.type with
        | _ => decide
      obtain ⟨r, made, -⟩ := forPoint_registers function (List.cons_ne_nil _ _) bound
      exact ⟨r, made⟩

/-- A value that is a number has words of its type's width, in any order, and they make a request
for a point that takes commands.  Whatever words make a request, the request says what they mean for
the point, and it is confirmed by its own beginning alone. -/
theorem forPoint_conveys :
    (∀ (p : Point) (value : Binary64) (order : ByteOrder), p.isWritable = true →
      value.isNaN = false → ∃ words r, p.type.encode value order = .ok words ∧
        words.length = p.type.width ∧ forPoint p words = .ok r) ∧
    ∀ (p : Point) (words : List UInt16) (r : WriteRequest), forPoint p words = .ok r →
      Sound p words r := by
  refine ⟨fun p value order writable number => ?_, fun p words r made => forPoint_sound made⟩
  obtain ⟨words, encoded, size, -⟩ := p.type.encode_isOk number order
  obtain ⟨r, made⟩ := forPoint_isOk writable size
  exact ⟨words, r, encoded, size, made⟩

/-- A set value of two registers at address 102. -/
def setValue : Point := { id := 2, address := 102, category := .adjustment, type := .int32 }

/-- The write of minus one to two registers is confirmed by its first five bytes. -/
theorem setValue_conveys :
    setValue.isWritable = true ∧ (Binary64.ofInt (-1)).isNaN = false ∧
      ∃ r, forPoint setValue [0xFFFF, 0xFFFF] = .ok r ∧
        r.pdu.bytes = [16, 0, 102, 0, 2, 4, 255, 255, 255, 255] ∧
        ∀ response : Pdu, r.check response = .ok () ↔ response.bytes = [16, 0, 102, 0, 2] := by
  have writable : setValue.isWritable = true := by decide
  have number : (Binary64.ofInt (-1)).isNaN = false := by decide +kernel
  obtain ⟨words, r, encoded, -, made⟩ := forPoint_conveys.1 setValue _ .abcd writable number
  have all : setValue.type.encode (.ofInt (-1)) .abcd = .ok [0xFFFF, 0xFFFF] := by decide +kernel
  cases encoded.symm.trans all
  have sound := forPoint_conveys.2 setValue _ r made
  have bytes : r.pdu.bytes = [16, 0, 102, 0, 2, 4, 255, 255, 255, 255] := by
    cases made
    rfl
  refine ⟨writable, number, r, made, bytes, fun response => ?_⟩
  rw [sound.confirmed response, bytes]
  rfl

end WriteRequest

end Fieldbus
