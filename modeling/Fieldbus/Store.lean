import Fieldbus.Plan.Batch
import Fieldbus.Table

/-!
# The store of latest values

The store holds the latest value of each point with the time at which it was
written.  A key is a channel, a category and a point.

Everything written goes through `Store.write`, which sets points of one category
of one channel at one time.  A poll cycle becomes one write for each category
that has readings, and an acknowledged command a write of one point.  The writes
are values, so what a cycle writes can be stated without a store.

`Store.get?` is the view.  A write changes the keys that it names and no others,
and removing a channel removes its keys and no others.
-/

namespace Fieldbus

/-! ## Writes -/

/-- Values for points of one category of a channel. -/
structure StoreWrite where
  channel : UInt16
  category : Category
  /-- The points and their values.  Of two values for a point the later one counts. -/
  values : List (UInt32 × Binary64)
deriving DecidableEq, Repr

/-- The writes that publish the readings of a cycle: one for each category that has any. -/
def cycleWrites (channel : UInt16) (readings : List Reading) : List StoreWrite :=
  Category.all.filterMap fun category =>
    match readings.filter fun r => r.category = category with
    | [] => none
    | group => some ⟨channel, category, group.map fun r => (r.point, r.value)⟩

/-- The write that publishes what a command put on a device. -/
def ackWrite (channel : UInt16) (p : Point) (value : Binary64) : StoreWrite :=
  ⟨channel, p.category, [(p.id, value)]⟩

/-! ## The store -/

/-- Where a value is kept. -/
structure StoreKey where
  channel : UInt16
  category : Category
  point : UInt32
deriving DecidableEq, Repr

/-- A value and the time of its write. -/
structure Sample where
  value : Binary64
  /-- Milliseconds since the epoch. -/
  time : Int
deriving DecidableEq, Repr

/-- The latest values.  One flat table stands for a map with one entry for each category of each
channel, which is a map of points.  A key names the place in both. -/
structure Store where
  samples : Table StoreKey Sample := {}
deriving Repr

namespace Store

def get? (s : Store) (key : StoreKey) : Option Sample := s.samples.get? key

def put (s : Store) (key : StoreKey) (sample : Sample) : Store := ⟨s.samples.insert key sample⟩

def write (s : Store) (w : StoreWrite) (time : Int) : Store :=
  w.values.foldl (fun s (point, value) => s.put ⟨w.channel, w.category, point⟩ ⟨value, time⟩) s

def writeAll (s : Store) (writes : List StoreWrite) (time : Int) : Store :=
  writes.foldl (fun s w => s.write w time) s

def removeChannel (s : Store) (channel : UInt16) : Store :=
  ⟨s.samples.filterKeys fun key => key.channel ≠ channel⟩

/-- The samples of one category of a channel, by point. -/
def category (s : Store) (channel : UInt16) (category : Category) : List (UInt32 × Sample) :=
  (s.samples.entries.filterMap fun entry =>
    if entry.1.channel = channel ∧ entry.1.category = category then some (entry.1.point, entry.2)
    else none).mergeSort fun a b => a.1 ≤ b.1

/-- The categories of a channel that hold anything, with their samples. -/
def channel (s : Store) (channel : UInt16) : List (Category × List (UInt32 × Sample)) :=
  (Category.all.map fun c => (c, s.category channel c)).filter fun entry => !entry.2.isEmpty

/-! ## The view -/

@[simp] theorem get?_empty (key : StoreKey) : ({} : Store).get? key = none := rfl

/-- A put is seen at its own key only. -/
theorem get?_put (s : Store) (key other : StoreKey) (sample : Sample) :
    (s.put key sample).get? other = if key = other then some sample else s.get? other :=
  Table.get?_insert s.samples key other sample

/-- Forgetting a channel takes its keys and no others. -/
theorem get?_removeChannel (s : Store) (channel : UInt16) (key : StoreKey) :
    (s.removeChannel channel).get? key = if key.channel = channel then none else s.get? key := by
  unfold get? removeChannel
  rw [Table.get?_filterKeys]
  by_cases h : key.channel = channel <;> simp [h]

end Store

end Fieldbus
