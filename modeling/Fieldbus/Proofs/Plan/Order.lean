import Mathlib.Data.Prod.Lex
import Fieldbus.Plan.Planner

/-!
# The order of points in a plan

Points are compared by their key: device, function, address and id, in this
order of weight.  The comparison that planning uses is the order of keys, which
is total, so sorting gives the points in the order of their keys and leaves
points with one key in the order in which they were given
(`stablySorted_sortPoints`).
-/

namespace Fieldbus

/-! ## Keys -/

/-- What points are sorted by: device, function, address, id. -/
def Point.key (p : Point) : ℕ ×ₗ ℕ ×ₗ ℕ ×ₗ ℕ :=
  toLex (p.slave.toNat, toLex (p.function.toNat, toLex (p.address.toNat, p.id.toNat)))

/-- The comparison of planning is the order of keys. -/
theorem Point.before_iff (p q : Point) : p.before q = true ↔ p.key ≤ q.key := by
  unfold Point.before Point.key
  simp only [Prod.Lex.toLex_le_toLex, ne_eq, ite_not, ← UInt8.toNat_inj, ← UInt16.toNat_inj,
    UInt8.lt_iff_toNat_lt, UInt16.lt_iff_toNat_lt, UInt32.le_iff_toNat_le]
  by_cases slave : p.slave.toNat = q.slave.toNat
  · by_cases function : p.function.toNat = q.function.toNat
    · by_cases address : p.address.toNat = q.address.toNat
      · simp [slave, function, address]
      · simp [slave, function, address]
    · simp [slave, function]
  · simp [slave]

theorem Point.before_trans (p q r : Point) (hpq : p.before q = true) (hqr : q.before r = true) :
    p.before r = true := by
  rw [Point.before_iff] at *
  exact hpq.trans hqr

theorem Point.before_total (p q : Point) : (p.before q || q.before p) = true := by
  simpa [Point.before_iff] using le_total p.key q.key

/-- In one table of one device, keys are ordered as addresses are. -/
theorem Point.address_le_of_key_le {p q : Point} (slave : p.slave = q.slave)
    (function : p.function = q.function) (h : p.key ≤ q.key) :
    p.address.toNat ≤ q.address.toNat := by
  simp only [Point.key, Prod.Lex.toLex_le_toLex, slave, function, lt_irrefl, true_and,
    false_or] at h
  omega

/-! ## Sorting -/

/-- A list is the points in the order of their keys, and those with one key are as they were
given. -/
structure StablySorted (points sorted : List Point) : Prop where
  /-- The points are the same. -/
  perm : sorted.Perm points
  /-- They are in the order of their keys. -/
  ordered : sorted.Pairwise fun p q => p.key ≤ q.key
  /-- Those with one key keep their order. -/
  stable : ∀ k, (sorted.filter fun p => p.key = k) = points.filter fun p => p.key = k

/-- Points with one key are found in a sort in the order in which they were given. -/
theorem filter_key_sortPoints (points : List Point) (k : ℕ ×ₗ ℕ ×ₗ ℕ ×ₗ ℕ) :
    ((sortPoints points).filter fun p => p.key = k) = points.filter fun p => p.key = k := by
  -- The points with one key are sorted as they are, so they stand in the sort in this order.
  have sorted : (points.filter fun p => p.key = k).Pairwise fun a b => a.before b = true := by
    apply List.pairwise_of_forall_mem_list
    intro a ha b hb
    simp only [List.mem_filter, decide_eq_true_eq] at ha hb
    exact (Point.before_iff a b).mpr (by rw [ha.2, hb.2])
  have sub : (points.filter fun p => p.key = k).Sublist (sortPoints points) :=
    List.sublist_mergeSort Point.before_trans Point.before_total sorted List.filter_sublist
  have sub' := sub.filter fun p => p.key = k
  rw [List.filter_filter] at sub'
  simp only [Bool.and_self] at sub'
  have size : (points.filter fun p => p.key = k).length =
      ((sortPoints points).filter fun p => p.key = k).length :=
    ((List.mergeSort_perm points Point.before).filter _).length_eq.symm
  exact (sub'.eq_of_length size).symm

/-- Sorting puts points in the order of their keys and is stable. -/
theorem stablySorted_sortPoints (points : List Point) :
    StablySorted points (sortPoints points) where
  perm := List.mergeSort_perm points Point.before
  ordered := by
    have sorted := List.pairwise_mergeSort Point.before_trans Point.before_total points
    exact sorted.imp fun {a b} h => (Point.before_iff a b).mp h
  stable := filter_key_sortPoints points

end Fieldbus
