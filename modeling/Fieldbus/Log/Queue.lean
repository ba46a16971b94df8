/-!
# Bounded queues

A queue holds at most as many items as its capacity says, in the order in which
they came.  An offer never waits.  What does not fit, or comes after the reader
has gone, is dropped and counted.

Places in a queue are counted in 61 bits, so no queue is larger than that, whatever
it holds.
-/

namespace Fieldbus.Log

/-- The greatest capacity of a queue. -/
def maxCapacity : Nat := 1 <<< 61 - 1

/-- A bounded queue. -/
structure Queue (α : Type) where
  /-- The most items held at once. -/
  capacity : Nat
  /-- The items, oldest first. -/
  items : List α := []
  /-- The number of items dropped so far. -/
  dropped : Nat := 0
  /-- Whether there is a reader. -/
  isOpen : Bool := true
deriving Repr

namespace Queue

variable {α : Type}

/-- An empty queue.  It holds at least one item. -/
def ofCapacity (capacity : Nat) : Queue α := { capacity := max 1 capacity }

/-- A queue without a reader. -/
def disabled : Queue α := { capacity := 1, isOpen := false }

def offer (q : Queue α) (item : α) : Queue α :=
  if q.isOpen && q.items.length < q.capacity then { q with items := q.items ++ [item] }
  else { q with dropped := q.dropped + 1 }

/-- The items that still fit. -/
def room (q : Queue α) : Nat := if q.isOpen then q.capacity - q.items.length else 0

/-- The queue after items are offered in order.  The first ones fill it up. -/
def offerAll (q : Queue α) (items : List α) : Queue α :=
  { q with
    items := q.items ++ items.take q.room
    dropped := q.dropped + (items.length - q.room) }

/-- The oldest items, at most so many, and the queue without them. -/
def takeMany (q : Queue α) (count : Nat) : List α × Queue α :=
  (q.items.take count, { q with items := q.items.drop count })

/-- The queue after its reader has gone. -/
def close (q : Queue α) : Queue α := { q with items := [], isOpen := false }

/-- Offering items at once is offering them one by one. -/
theorem offerAll_eq_foldl (q : Queue α) (items : List α) :
    q.offerAll items = items.foldl offer q := by
  induction items generalizing q with
  | nil => simp [offerAll]
  | cons item rest ih =>
    rw [List.foldl_cons, ← ih]
    unfold offerAll offer room
    cases q.isOpen with
    | false => simp; omega
    | true =>
      by_cases h : q.items.length < q.capacity
      · obtain ⟨k, hk⟩ : ∃ k, q.capacity - q.items.length = k + 1 :=
          ⟨q.capacity - q.items.length - 1, by omega⟩
        have hk' : q.capacity - (q.items.length + 1) = k := by omega
        simp [h, hk, hk']
      · have hk : q.capacity - q.items.length = 0 := by omega
        simp [h, hk]; omega

/-- What is held and what is dropped add up to what is offered. -/
theorem offer_counts (q : Queue α) (item : α) :
    (q.offer item).items.length + (q.offer item).dropped = q.items.length + q.dropped + 1 := by
  unfold offer
  split <;> simp <;> omega

/-- An offer keeps the bound. -/
theorem length_offer_le (q : Queue α) (item : α) (h : q.items.length ≤ q.capacity) :
    (q.offer item).items.length ≤ (q.offer item).capacity := by
  unfold offer
  split
  · rename_i room
    simp only [Bool.and_eq_true, decide_eq_true_eq] at room
    simp only [List.length_append, List.length_singleton]
    omega
  · exact h

end Queue

end Fieldbus.Log
