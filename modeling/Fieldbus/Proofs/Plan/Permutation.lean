import Mathlib.Data.List.Nodup
import Fieldbus.Proofs.Plan.Structure

/-!
# Plans of reordered points

The key of a point ends in its id.  So where ids are distinct no two points share
a key, and two lists of the same points have one sort (`sortPoints_eq_of_perm`).
Planning sees nothing but that sort: neither the batches nor the point that it
names when it fails depend on the order in which the points were given
(`plan_eq_of_perm`).
-/

namespace Fieldbus

theorem Point.id_eq_of_key_eq {p q : Point} (h : p.key = q.key) : p.id = q.id := by
  simp only [Point.key, toLex_inj, Prod.mk.injEq] at h
  exact UInt32.toNat_inj.mp h.2.2.2

/-- The same points with distinct ids have one sort. -/
theorem sortPoints_eq_of_perm {points points' : List Point} (same : points.Perm points')
    (distinct : (points.map Point.id).Nodup) : sortPoints points = sortPoints points' := by
  have one := stablySorted_sortPoints points
  have other := stablySorted_sortPoints points'
  apply List.Perm.eq_of_pairwise _ one.ordered other.ordered
    (one.perm.trans (same.trans other.perm.symm))
  intro p q hp hq above below
  have member : p ∈ points := one.perm.mem_iff.mp hp
  have member' : q ∈ points := same.mem_iff.mpr (other.perm.mem_iff.mp hq)
  exact List.inj_on_of_nodup_map distinct member member'
    (Point.id_eq_of_key_eq (le_antisymm above below))

/-- The order in which points are given decides neither what a plan is nor which point makes
planning fail. -/
theorem plan_eq_of_perm {points points' : List Point} (same : points.Perm points')
    (distinct : (points.map Point.id).Nodup) (limits : Limits) (channel : UInt16) :
    plan limits channel points = plan limits channel points' := by
  rw [plan_eq, plan_eq, sortPoints_eq_of_perm same distinct]

/-- Two points overlap, then one is too wide for two registers, and the last ends past the last
address. -/
def faultyPoints : List Point := [
  { id := 4, address := 0, type := .uint16 },
  { id := 3, address := 4, type := .uint16 },
  { id := 7, address := 4, type := .uint32 },
  { id := 1, address := 9, type := .float64 },
  { id := 2, address := 65535, type := .uint32 }]

/-- The wide point is named, also where it comes after the other unfit one. -/
theorem faultyPoints_plan_reverse :
    faultyPoints.Perm faultyPoints.reverse ∧ (faultyPoints.map Point.id).Nodup ∧
      plan { registers := 2 } 5 faultyPoints = .error (.tooWide 5 1 4 2) ∧
      plan { registers := 2 } 5 faultyPoints.reverse = .error (.tooWide 5 1 4 2) := by
  have same : faultyPoints.Perm faultyPoints.reverse := (List.reverse_perm _).symm
  have distinct : (faultyPoints.map Point.id).Nodup := by decide
  have sorted : sortPoints faultyPoints = faultyPoints := List.mergeSort_of_pairwise (by decide)
  have named : plan { registers := 2 } 5 faultyPoints = .error (.tooWide 5 1 4 2) := by
    rw [plan_eq, sorted]
    rfl
  exact ⟨same, distinct, named, plan_eq_of_perm same distinct { registers := 2 } 5 ▸ named⟩

end Fieldbus
