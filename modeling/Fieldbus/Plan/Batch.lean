import Fieldbus.Channel.Point
import Fieldbus.Pdu.Response

/-!
# Read batches

A batch is a run of units read with one request, with the points that lie in it.
Decoding cuts each point's words out of the response.  A point that does not
decode makes the whole batch fail.
-/

namespace Fieldbus

/-- The value of a point, read from a device. -/
structure Reading where
  point : UInt32
  category : Category
  value : Binary64
deriving DecidableEq, Repr

/-- Points read with one request. -/
structure Batch where
  index : Nat := 0
  slave : UInt8 := 1
  function : UInt8 := FunctionCode.readHoldingRegisters
  /-- The first unit. -/
  start : UInt16 := 0
  /-- The number of units. -/
  quantity : UInt16 := 1
  points : List Point := []
deriving DecidableEq, Repr

namespace Batch

/-- One past the last unit. -/
def finish (b : Batch) : Nat := b.start.toNat + b.quantity.toNat

def request (b : Batch) : Except Fault Pdu := Pdu.readRequest b.function b.start b.quantity

def parse (b : Batch) (response : Pdu) : Except Fault (List UInt16) :=
  response.parseRead b.function b.quantity

/-- The value of one point, from the words of the batch.  A place before the first word or past the
last one is outside the batch. -/
def readPoint (b : Batch) (words : List UInt16) (p : Point) : Except Fault Reading :=
  let place := (p.address - b.start).toNat
  if p.address < b.start ∨ words.length < place then
    .error (.data (.outsideBatch p.address b.start))
  else (p.valueOf (words.drop place)).map fun value => ⟨p.id, p.category, value⟩

/-- The values of all points, from the words of the batch. -/
def decode (b : Batch) (words : List UInt16) : Except Fault (List Reading) :=
  if words.length ≠ b.quantity.toNat then
    .error (.data (.batchSize b.index b.quantity.toNat words.length))
  else b.points.mapM (b.readPoint words)

/-- The words of the batch on a device whose units are given. -/
def wordsOn (b : Batch) (image : Nat → UInt16) : List UInt16 :=
  (List.range b.quantity.toNat).map fun i => image (b.start.toNat + i)

end Batch

end Fieldbus
