import Fieldbus.Pdu.Response

/-!
# Responses read by places

A response may hold any bytes, and the reader must not look for one that is not there.  The reader
of a data unit is stated a second time here, with each byte looked up by its place and each piece
cut from one place up to another.  A lookup past the end gives nothing, and so does a piece that
reaches past it.

`Pdu.parseReadAt_eq` says that no lookup of this reader fails, whatever the bytes are, and that it
gives what `Pdu.parseRead` gives.

*Units.*  A register is two neighbouring bytes, and a bit has its place in a byte.  What the reader
makes of a payload by going through it has each unit where it is looked up (`getElem?_wordsOf`,
`getElem?_flatMap_byteBits`).
-/

namespace Fieldbus

/-! ## Pieces -/

/-- The items from one place up to another, if both lie within. -/
def slice? {α : Type} (items : List α) (start finish : Nat) : Option (List α) :=
  if start ≤ finish ∧ finish ≤ items.length then some ((items.take finish).drop start) else none

/-- The piece between two others. -/
theorem slice?_append {α : Type} (before piece after : List α) :
    slice? (before ++ piece ++ after) before.length (before.length + piece.length) =
      some piece := by
  have finish : before.length + piece.length = (before ++ piece).length := by simp
  unfold slice?
  rw [if_pos (by simp), finish, List.take_left, List.drop_left]

/-- Items that are there are found at their places. -/
theorem mapM_getElem? {α : Type} (items : List α) {count : Nat} (enough : count ≤ items.length) :
    (List.range count).mapM (fun i => items[i]?) = some (items.take count) := by
  induction count with
  | zero => rfl
  | succ count ih =>
    have inside : count < items.length := enough
    rw [List.range_succ, List.mapM_append, ih (by omega), List.take_succ_eq_append_getElem inside]
    simp [inside]

/-! ## Units of a payload -/

/-- The register at a place of a payload, most significant byte first. -/
def registerAt? (data : List UInt8) (i : Nat) : Option UInt16 := do
  let high ← data[2 * i]?
  let low ← data[2 * i + 1]?
  return wordOf high low

/-- The bit at a place of a payload, least significant first, as a zero or one. -/
def bitAt? (data : List UInt8) (i : Nat) : Option UInt16 := do
  let byte ← data[i / 8]?
  return if byte.toNat.testBit (i % 8) then 1 else 0

/-- The unit at a place of a payload. -/
def unitAt? (fc : UInt8) (data : List UInt8) (i : Nat) : Option UInt16 :=
  if FunctionCode.isBit fc then bitAt? data i else registerAt? data i

theorem getElem?_wordsOf : (data : List UInt8) → (i : Nat) → (wordsOf data)[i]? = registerAt? data i
  | [], _ => rfl
  | [_], _ => by simp [wordsOf, registerAt?]
  | high :: low :: rest, 0 => rfl
  | high :: low :: rest, i + 1 => by
    have place : 2 * (i + 1) = 2 * i + 2 := by omega
    simp only [wordsOf, List.getElem?_cons_succ, getElem?_wordsOf rest i, registerAt?, place]

theorem getElem?_flatMap_byteBits (data : List UInt8) (i : Nat) :
    (data.flatMap byteBits)[i]? = bitAt? data i := by
  induction data generalizing i with
  | nil => rfl
  | cons byte rest ih =>
    have size : (byteBits byte).length = 8 := rfl
    rw [List.flatMap_cons]
    by_cases first : i < 8
    · rw [List.getElem?_append_left (size ▸ first)]
      have place : i / 8 = 0 ∧ i % 8 = i := by omega
      simp [bitAt?, place, byteBits, first]
    · obtain ⟨j, rfl⟩ : ∃ j, i = j + 8 := ⟨i - 8, by omega⟩
      have place : (j + 8) / 8 = j / 8 + 1 ∧ (j + 8) % 8 = j % 8 := by omega
      rw [List.getElem?_append_right (by omega), size, Nat.add_sub_cancel, ih]
      simp only [bitAt?, place, List.getElem?_cons_succ]

theorem length_wordsOf : (data : List UInt8) → (wordsOf data).length = data.length / 2
  | [] => rfl
  | [_] => by simp [wordsOf]
  | _ :: _ :: rest => by
    simp only [wordsOf, List.length_cons, length_wordsOf rest]
    omega

theorem length_flatMap_byteBits (data : List UInt8) :
    (data.flatMap byteBits).length = 8 * data.length := by
  induction data with
  | nil => rfl
  | cons byte rest ih =>
    have size : (byteBits byte).length = 8 := rfl
    rw [List.flatMap_cons, List.length_append, size, ih, List.length_cons]
    omega

namespace Pdu

/-! ## The reader -/

/-- `expectFunction` by places. -/
def expectAt (p : Pdu) (fc : UInt8) : Option (Except Fault Unit) :=
  if p.size = 0 then some (.error (.frame .emptyPdu))
  else do
    let actual ← p.bytes[0]?
    if actual = fc ||| FunctionCode.exceptionBit then
      if p.size ≤ 1 then return .error (.frame .exceptionWithoutCode)
      else
        let code ← p.bytes[1]?
        return .error (.refusal actual code)
    else if actual ≠ fc then return .error (.protocol (.otherFunction fc actual))
    else return .ok ()

/-- The words of a payload by places. -/
def wordsAt (fc : UInt8) (quantity : UInt16) (data : List UInt8) : Option (List UInt16) :=
  (List.range (if FunctionCode.isBit fc then quantity.toNat else data.length / 2)).mapM
    (unitAt? fc data)

/-- `parseRead` by places. -/
def parseReadAt (p : Pdu) (fc : UInt8) (quantity : UInt16) :
    Option (Except Fault (List UInt16)) := do
  match ← p.expectAt fc with
  | .error fault => return .error fault
  | .ok () =>
    if p.size < 2 then return .error (.frame .missingByteCount)
    else
      let count ← p.bytes[1]?
      if count.toNat ≠ payloadSize fc quantity ∨ p.size ≠ 2 + count.toNat then
        return .error
          (.data (.byteCount fc quantity count.toNat (p.size - 2) (payloadSize fc quantity)))
      else
        let data ← slice? p.bytes 2 (2 + count.toNat)
        let words ← wordsAt fc quantity data
        return .ok words

theorem expectAt_eq (p : Pdu) (fc : UInt8) : p.expectAt fc = some (p.expectFunction fc) := by
  obtain ⟨bytes, fits⟩ := p
  cases bytes with
  | nil => rfl
  | cons actual rest =>
    simp only [expectAt, expectFunction, size, List.length_cons, Nat.add_eq_zero_iff]
    by_cases refused : actual = fc ||| FunctionCode.exceptionBit
    · cases rest with
      | nil => simp [refused]
      | cons code rest => simp [refused]
    · by_cases other : actual = fc
      · subst other
        simp [refused]
      · simp [refused, other]

theorem wordsAt_eq {fc : UInt8} {quantity : UInt16} {data : List UInt8}
    (size : data.length = payloadSize fc quantity) :
    wordsAt fc quantity data =
      some (if FunctionCode.isBit fc then unpackBits data quantity.toNat else wordsOf data) := by
  unfold wordsAt unitAt?
  unfold payloadSize at size
  split
  next bit =>
    rw [if_pos bit] at size
    have enough : quantity.toNat ≤ (data.flatMap byteBits).length := by
      rw [length_flatMap_byteBits]
      omega
    simp only [← getElem?_flatMap_byteBits]
    exact mapM_getElem? _ enough
  next register =>
    simp only [← getElem?_wordsOf, ← length_wordsOf]
    rw [mapM_getElem? _ (Nat.le_refl _), List.take_length]

/-- The reading of a response to the function that was asked for. -/
theorem parseRead_of_expected {p : Pdu} {fc actual count : UInt8} {data : List UInt8}
    (expected : p.expectFunction fc = .ok ()) (shape : p.bytes = actual :: count :: data)
    (quantity : UInt16) :
    p.parseRead fc quantity =
      if count.toNat ≠ payloadSize fc quantity ∨ data.length ≠ count.toNat then
        .error (.data (.byteCount fc quantity count.toNat data.length (payloadSize fc quantity)))
      else .ok (if FunctionCode.isBit fc then unpackBits data quantity.toNat else wordsOf data) := by
  unfold parseRead
  rw [expected, shape]
  simp only [bind, Except.bind]
  split
  · rfl
  · split
    · rfl
    · rfl

/-- The reader by places is the reader: it finds each byte that it looks up. -/
theorem parseReadAt_eq (p : Pdu) (fc : UInt8) (quantity : UInt16) :
    p.parseReadAt fc quantity = some (p.parseRead fc quantity) := by
  unfold parseReadAt
  rw [expectAt_eq]
  cases expected : p.expectFunction fc with
  | error fault => simp [parseRead, expected, bind, Except.bind]
  | ok _ =>
    obtain ⟨bytes, fits⟩ := p
    match bytes with
    | [] => cases expected
    | [_] => simp [parseRead, expected, bind, Except.bind, size]
    | actual :: count :: data =>
      rw [parseRead_of_expected expected rfl]
      have sizes : (⟨actual :: count :: data, fits⟩ : Pdu).size = 2 + data.length := by
        simp [size]
        omega
      have second : (actual :: count :: data)[1]? = some count := rfl
      have same : 2 + data.length ≠ 2 + count.toNat ↔ data.length ≠ count.toNat := by omega
      simp only [Option.bind_eq_bind, Option.bind_some, sizes, second, same,
        Nat.add_sub_cancel_left]
      rw [if_neg (by omega)]
      split
      next => rfl
      next conforming =>
        obtain ⟨announced, whole⟩ := not_or.mp conforming
        simp only [ne_eq, Decidable.not_not] at announced whole
        have piece : slice? (actual :: count :: data) 2 (2 + count.toNat) = some data := by
          have := slice?_append [actual, count] data []
          rwa [List.append_nil, whole] at this
        rw [piece, Option.bind_some, wordsAt_eq (whole.trans announced)]
        rfl

end Pdu

end Fieldbus
