import Fieldbus.Channel.Basic
import Fieldbus.Channel.Defect
import Fieldbus.Plan.Batch

/-!
# Planning reads

A plan is the ordered list of batches that a poll cycle reads.  Points are sorted
by device, function, address and id.  A batch then takes points as long as the
hole before the next one is bridgeable and the span stays within the limit of one
request.  Points that overlap share a batch unless the span grows too far.

The result does not depend on the order in which the points are given, since ids
are distinct on a channel and the sort key ends in the id.

A point that no request can hold, or that ends past the last address, makes
planning fail with that point.
-/

namespace Fieldbus

/-! ## Order -/

/-- The order of points in a plan: device, function, address, id. -/
def Point.before (p q : Point) : Bool :=
  if p.slave ≠ q.slave then p.slave < q.slave
  else if p.function ≠ q.function then p.function < q.function
  else if p.address ≠ q.address then p.address < q.address
  else p.id ≤ q.id

def sortPoints (points : List Point) : List Point := points.mergeSort Point.before

/-! ## Batches -/

namespace Batch

/-- The batch that holds one point. -/
def single (index : Nat) (p : Point) : Batch :=
  ⟨index, p.slave, p.function, p.address, UInt16.ofNat p.width, [p]⟩

/-- Where the batch would end with one more point. -/
def finishWith (b : Batch) (p : Point) : Nat := max b.finish p.finish

def admits (limits : Limits) (b : Batch) (p : Point) : Bool :=
  b.slave = p.slave && b.function = p.function &&
    p.address.toNat - b.finish ≤ limits.gap.toNat &&
    b.finishWith p - b.start.toNat ≤ (limits.read p.function).toNat

def extend (b : Batch) (p : Point) : Batch :=
  { b with
    quantity := UInt16.ofNat (b.finishWith p - b.start.toNat)
    points := b.points ++ [p] }

end Batch

/-- The batches of sorted points, from an open batch on. -/
def groupFrom (limits : Limits) (opened : Batch) : List Point → List Batch
  | [] => [opened]
  | p :: rest =>
    if opened.admits limits p then groupFrom limits (opened.extend p) rest
    else opened :: groupFrom limits (.single (opened.index + 1) p) rest

def groupPoints (limits : Limits) : List Point → List Batch
  | [] => []
  | p :: rest => groupFrom limits (.single 0 p) rest

/-! ## Plans -/

/-- The batches of one poll cycle, in order. -/
structure Plan where
  batches : List Batch := []
deriving DecidableEq, Repr

namespace Plan

def size (p : Plan) : Nat := p.batches.length

def isEmpty (p : Plan) : Bool := p.batches.isEmpty

def pointCount (p : Plan) : Nat := p.batches.foldl (fun n b => n + b.points.length) 0

end Plan

/-- Refuses a point that no request can hold. -/
def checkPoint (limits : Limits) (channel : UInt16) (p : Point) : Except Defect Unit :=
  let limit := (limits.read p.function).toNat
  if limit < p.width then .error (.tooWide channel p.id p.width limit)
  else if 0x10000 < p.finish then .error (.point channel p.id .overflow)
  else .ok ()

def plan (limits : Limits) (channel : UInt16) (points : List Point) : Except Defect Plan := do
  let sorted := sortPoints points
  sorted.forM (checkPoint limits channel)
  return ⟨groupPoints limits sorted⟩

def Channel.plan (c : Channel) : Except Defect Plan := Fieldbus.plan c.limits c.id c.points

end Fieldbus
