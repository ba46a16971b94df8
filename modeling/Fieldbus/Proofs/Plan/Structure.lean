import Fieldbus.Proofs.Plan.Order

/-!
# The structure of a plan

Planning fails at the first point that no request can hold, and otherwise cuts
the sorted points into consecutive batches.  `Batch.WellFormed` says what a batch
of a plan is: the exact span of its points, within the limit of one request, with
no hole wider than may be bridged.

A batch grows while it is open.  `WellFormed` holds of a batch of one point
(`WellFormed.single`) and is kept when a batch takes the next point
(`WellFormed.extend`), so it holds of every batch (`wellFormed_groupFrom`).  The
end of an open batch is a running maximum: points may overlap, and a wide one may
reach past those that follow it.

No sum is cut off.  A batch ends at or below `2 ^ 16`, and its quantity is at most
the limit of one request.
-/

namespace Fieldbus

/-! ## Points that no request can hold -/

/-- No request can hold the point: it is wider than a request may be, or it ends past the last
address. -/
def Point.Unfit (limits : Limits) (p : Point) : Prop :=
  (limits.read p.function).toNat < p.width ∨ 0x10000 < p.finish

instance (limits : Limits) (p : Point) : Decidable (p.Unfit limits) :=
  inferInstanceAs (Decidable (_ ∨ _))

/-- The defect with which planning names an unfit point. -/
def Point.defect (limits : Limits) (channel : UInt16) (p : Point) : Defect :=
  if (limits.read p.function).toNat < p.width then
    .tooWide channel p.id p.width (limits.read p.function).toNat
  else .point channel p.id .overflow

/-- A point is refused exactly if it is unfit. -/
theorem checkPoint_eq (limits : Limits) (channel : UInt16) (p : Point) :
    checkPoint limits channel p =
      if p.Unfit limits then .error (p.defect limits channel) else .ok () := by
  unfold checkPoint Point.Unfit Point.defect
  by_cases wide : (limits.read p.function).toNat < p.width
  · simp [wide]
  · simp [wide]

/-- Checking points in order stops at the first unfit one. -/
theorem forM_checkPoint (limits : Limits) (channel : UInt16) (points : List Point) :
    points.forM (checkPoint limits channel) =
      match points.find? fun p => p.Unfit limits with
      | some p => .error (p.defect limits channel)
      | none => .ok () := by
  induction points with
  | nil => rfl
  | cons p rest ih =>
    change (checkPoint limits channel p >>= fun _ => rest.forM (checkPoint limits channel)) = _
    rw [checkPoint_eq]
    by_cases unfit : p.Unfit limits
    · simp [unfit, bind, Except.bind]
    · simp [unfit, bind, Except.bind, ih]

/-- Planning fails at the first unfit point in order, and groups the points if there is none. -/
theorem plan_eq (limits : Limits) (channel : UInt16) (points : List Point) :
    plan limits channel points =
      match (sortPoints points).find? fun p => p.Unfit limits with
      | some p => .error (p.defect limits channel)
      | none => .ok ⟨groupPoints limits (sortPoints points)⟩ := by
  simp only [plan, forM_checkPoint]
  cases (sortPoints points).find? fun p => p.Unfit limits with
  | none => rfl
  | some p => rfl

/-! ## The reach of points -/

/-- The greatest end of points. -/
def reach (points : List Point) : Nat := (points.map Point.finish).foldr max 0

@[simp] theorem reach_nil : reach [] = 0 := rfl

@[simp] theorem reach_cons (p : Point) (points : List Point) :
    reach (p :: points) = max p.finish (reach points) := rfl

theorem reach_append (before after : List Point) :
    reach (before ++ after) = max (reach before) (reach after) := by
  induction before with
  | nil => simp
  | cons p rest ih => rw [List.cons_append, reach_cons, reach_cons, ih, max_assoc]

theorem finish_le_reach {p : Point} {points : List Point} (h : p ∈ points) :
    p.finish ≤ reach points := by
  induction points with
  | nil => simp at h
  | cons q rest ih =>
    rcases List.mem_cons.mp h with rfl | h
    · simp
    · exact (ih h).trans (by simp)

/-- A bound of all ends bounds the greatest. -/
theorem reach_le {points : List Point} {n : Nat} (h : ∀ p ∈ points, p.finish ≤ n) :
    reach points ≤ n := by
  induction points with
  | nil => simp
  | cons p rest ih =>
    rw [reach_cons]
    exact max_le (h p (by simp)) (ih fun q hq => h q (by simp [hq]))

/-! ## Limits of one request -/

/-- A channel asks for no more than the protocol allows. -/
theorem Limits.read_le_ceiling (limits : Limits) (fc : UInt8) :
    limits.read fc ≤ FunctionCode.readCeiling fc := by
  rw [UInt16.le_iff_toNat_le, Limits.read, UInt16.toNat_min]
  exact min_le_right _ _

theorem Limits.read_le (limits : Limits) (fc : UInt8) : (limits.read fc).toNat ≤ 2000 := by
  have h := UInt16.le_iff_toNat_le.mp (limits.read_le_ceiling fc)
  have ceiling : (FunctionCode.readCeiling fc).toNat ≤ 2000 := by
    unfold FunctionCode.readCeiling
    split
    · decide
    · decide
  omega

theorem Point.width_pos (p : Point) : 1 ≤ p.width := by
  unfold Point.width
  split
  · decide
  · cases p.type with
    | _ => decide

/-! ## Well-formed batches -/

/-- What a batch of a plan is. -/
structure Batch.WellFormed (limits : Limits) (b : Batch) : Prop where
  /-- There is something to read. -/
  nonempty : b.points ≠ []
  /-- All points are on the device of the batch. -/
  slave : ∀ p ∈ b.points, p.slave = b.slave
  /-- All points are in the table of the batch. -/
  function : ∀ p ∈ b.points, p.function = b.function
  /-- The batch starts at a point. -/
  start_mem : ∃ p ∈ b.points, p.address = b.start
  /-- No point lies before the start. -/
  start_le : ∀ p ∈ b.points, b.start ≤ p.address
  /-- The batch ends where a point ends. -/
  finish_mem : ∃ p ∈ b.points, p.finish = b.finish
  /-- No point reaches past the end. -/
  finish_ge : ∀ p ∈ b.points, p.finish ≤ b.finish
  /-- The end is at most one past the last address. -/
  finish_le : b.finish ≤ 0x10000
  /-- The request asks for something. -/
  quantity_pos : 1 ≤ b.quantity
  /-- The request stays within the limit of the channel. -/
  quantity_le : b.quantity ≤ limits.read b.function
  /-- The limit of the channel stays within that of the protocol. -/
  limit_le : limits.read b.function ≤ FunctionCode.readCeiling b.function
  /-- A hole before a point is no wider than may be bridged. -/
  gap_le : ∀ before p after, b.points = before ++ p :: after → before ≠ [] →
    p.address.toNat ≤ reach before + limits.gap.toNat

namespace Batch

/-- The points of a batch reach exactly to its end. -/
theorem WellFormed.reach_eq {limits : Limits} {b : Batch} (h : b.WellFormed limits) :
    reach b.points = b.finish := by
  obtain ⟨p, hp, last⟩ := h.finish_mem
  apply Nat.le_antisymm
  · exact reach_le h.finish_ge
  · rw [← last]
    exact finish_le_reach hp

@[simp] theorem single_points (i : Nat) (p : Point) : (single i p).points = [p] := rfl

@[simp] theorem single_index (i : Nat) (p : Point) : (single i p).index = i := rfl

@[simp] theorem extend_points (b : Batch) (p : Point) :
    (b.extend p).points = b.points ++ [p] := rfl

@[simp] theorem extend_index (b : Batch) (p : Point) : (b.extend p).index = b.index := rfl

theorem single_finish {limits : Limits} {p : Point} (fit : ¬ p.Unfit limits) (i : Nat) :
    (single i p).quantity.toNat = p.width ∧ (single i p).finish = p.finish := by
  have limit := limits.read_le p.function
  simp only [Point.Unfit, not_or, not_lt] at fit
  have quantity : (UInt16.ofNat p.width).toNat = p.width :=
    UInt16.toNat_ofNat_of_lt (by simp only [UInt16.size]; omega)
  exact ⟨quantity, by simp only [finish, single, quantity, Point.finish]⟩

/-- A point that a request can hold makes a batch. -/
theorem WellFormed.single {limits : Limits} {p : Point} (fit : ¬ p.Unfit limits) (i : Nat) :
    (Batch.single i p).WellFormed limits := by
  obtain ⟨quantity, finish⟩ := single_finish fit i
  have width := p.width_pos
  simp only [Point.Unfit, not_or, not_lt] at fit
  exact {
    nonempty := by simp
    slave := by simp [Batch.single]
    function := by simp [Batch.single]
    start_mem := ⟨p, by simp, rfl⟩
    start_le := by simp [Batch.single]
    finish_mem := ⟨p, by simp, finish.symm⟩
    finish_ge := by simp [finish]
    finish_le := by rw [finish]; exact fit.2
    quantity_pos := by
      rw [UInt16.le_iff_toNat_le, quantity]
      exact width
    quantity_le := by
      rw [UInt16.le_iff_toNat_le, quantity]
      exact fit.1
    limit_le := limits.read_le_ceiling _
    gap_le := by
      intro before q after split nonempty
      cases before with
      | nil => exact absurd rfl nonempty
      | cons _ _ => simp at split }

/-- A point joins a batch of its table if the hole before it and the span are in bounds. -/
theorem admits_iff (limits : Limits) (b : Batch) (p : Point) :
    b.admits limits p = true ↔
      p.slave = b.slave ∧ p.function = b.function ∧
        p.address.toNat ≤ b.finish + limits.gap.toNat ∧
        b.finishWith p ≤ b.start.toNat + (limits.read p.function).toNat := by
  simp only [admits, Bool.and_eq_true, decide_eq_true_eq]
  constructor
  · rintro ⟨⟨⟨slave, function⟩, gap⟩, span⟩
    exact ⟨slave.symm, function.symm, by omega, by omega⟩
  · rintro ⟨slave, function, gap, span⟩
    exact ⟨⟨⟨slave.symm, function.symm⟩, by omega⟩, by omega⟩

/-- The quantity of an extended batch is not cut off, so the batch ends where its points do. -/
theorem extend_finish {limits : Limits} {b : Batch} {p : Point}
    (admitted : b.admits limits p = true) :
    (b.extend p).quantity.toNat = b.finishWith p - b.start.toNat ∧
      (b.extend p).finish = b.finishWith p := by
  obtain ⟨-, -, -, span⟩ := (admits_iff limits b p).mp admitted
  have limit := limits.read_le p.function
  have quantity : (UInt16.ofNat (b.finishWith p - b.start.toNat)).toNat =
      b.finishWith p - b.start.toNat :=
    UInt16.toNat_ofNat_of_lt (by simp only [UInt16.size]; omega)
  have above : b.start.toNat ≤ b.finishWith p := by
    simp only [finishWith, finish]
    omega
  refine ⟨quantity, ?_⟩
  simp only [extend, finish, quantity]
  omega

/-- A batch stays well-formed when it takes a point that does not lie before its own. -/
theorem WellFormed.extend {limits : Limits} {b : Batch} {p : Point} (h : b.WellFormed limits)
    (fit : ¬ p.Unfit limits) (later : ∀ q ∈ b.points, q.key ≤ p.key)
    (admitted : b.admits limits p = true) : (b.extend p).WellFormed limits := by
  obtain ⟨slave, function, gap, span⟩ := (admits_iff limits b p).mp admitted
  obtain ⟨quantity, finish⟩ := extend_finish admitted
  obtain ⟨first, firstMem, firstStart⟩ := h.start_mem
  obtain ⟨last, lastMem, lastFinish⟩ := h.finish_mem
  have start : b.start.toNat ≤ p.address.toNat := by
    rw [← firstStart]
    exact Point.address_le_of_key_le ((h.slave first firstMem).trans slave.symm)
      ((h.function first firstMem).trans function.symm) (later first firstMem)
  have width := p.width_pos
  simp only [Point.Unfit, not_or, not_lt] at fit
  exact {
    nonempty := by simp
    slave := by
      intro q hq
      rcases List.mem_append.mp hq with hq | hq
      · exact h.slave q hq
      · rw [List.mem_singleton.mp hq, slave]
        rfl
    function := by
      intro q hq
      rcases List.mem_append.mp hq with hq | hq
      · exact h.function q hq
      · rw [List.mem_singleton.mp hq, function]
        rfl
    start_mem := ⟨first, by simp [firstMem], firstStart⟩
    start_le := by
      intro q hq
      rcases List.mem_append.mp hq with hq | hq
      · exact h.start_le q hq
      · rw [List.mem_singleton.mp hq]
        exact UInt16.le_iff_toNat_le.mpr start
    finish_mem := by
      rw [finish, finishWith]
      rcases le_total b.finish p.finish with le | le
      · exact ⟨p, by simp, (max_eq_right le).symm⟩
      · exact ⟨last, by simp [lastMem], by rw [max_eq_left le, lastFinish]⟩
    finish_ge := by
      intro q hq
      rw [finish, finishWith]
      rcases List.mem_append.mp hq with hq | hq
      · exact (h.finish_ge q hq).trans (le_max_left _ _)
      · rw [List.mem_singleton.mp hq]
        exact le_max_right _ _
    finish_le := by
      rw [finish, finishWith]
      exact max_le h.finish_le fit.2
    quantity_pos := by
      have reach : p.finish ≤ b.finishWith p := le_max_right _ _
      rw [UInt16.le_iff_toNat_le, quantity]
      simp only [Point.finish] at reach
      simp only [UInt16.toNat_one]
      omega
    quantity_le := by
      rw [UInt16.le_iff_toNat_le, quantity]
      simp only [Batch.extend, ← function]
      omega
    limit_le := h.limit_le
    gap_le := by
      intro before q after split nonempty
      rcases List.eq_nil_or_concat after with rfl | ⟨after, r, rfl⟩
      · -- The point is the new one, and the batch ended where its points do.
        obtain ⟨points, new⟩ := List.append_inj' split rfl
        rw [← points, h.reach_eq, ← List.singleton_inj.mp new]
        exact gap
      · have split' : b.points = before ++ q :: after := by
          simp only [extend_points, List.concat_eq_append, ← List.cons_append,
            ← List.append_assoc] at split
          exact (List.append_inj' split rfl).1
        exact h.gap_le before q after split' nonempty }

end Batch

/-! ## Grouping -/

/-- Grouping takes every point once and keeps the order. -/
theorem flatMap_groupFrom (limits : Limits) (opened : Batch) (points : List Point) :
    (groupFrom limits opened points).flatMap Batch.points = opened.points ++ points := by
  induction points generalizing opened with
  | nil => simp [groupFrom]
  | cons p rest ih =>
    simp only [groupFrom]
    split
    · rw [ih, Batch.extend_points, List.append_assoc, List.singleton_append]
    · rw [List.flatMap_cons, ih, Batch.single_points, List.singleton_append]

/-- The batches are numbered from the open one on. -/
theorem index_groupFrom (limits : Limits) (opened : Batch) (points : List Point) {i : Nat}
    {b : Batch} (h : (groupFrom limits opened points)[i]? = some b) :
    b.index = opened.index + i := by
  induction points generalizing opened i with
  | nil =>
    simp only [groupFrom, List.getElem?_singleton, Option.ite_none_right_eq_some,
      Option.some.injEq] at h
    rw [h.1, ← h.2, Nat.add_zero]
  | cons p rest ih =>
    simp only [groupFrom] at h
    split at h
    · exact ih (opened.extend p) h
    · cases i with
      | zero =>
        rw [List.getElem?_cons_zero, Option.some.injEq] at h
        rw [← h, Nat.add_zero]
      | succ i =>
        rw [List.getElem?_cons_succ] at h
        rw [ih _ h, Batch.single_index]
        omega

/-- From a well-formed open batch on, the batches of fit and sorted points are well-formed. -/
theorem wellFormed_groupFrom {limits : Limits} {opened : Batch} {points : List Point}
    (h : opened.WellFormed limits) (fit : ∀ p ∈ points, ¬ p.Unfit limits)
    (sorted : (opened.points ++ points).Pairwise fun p q => p.key ≤ q.key) :
    ∀ b ∈ groupFrom limits opened points, b.WellFormed limits := by
  induction points generalizing opened with
  | nil =>
    intro b hb
    rw [groupFrom, List.mem_singleton] at hb
    exact hb ▸ h
  | cons p rest ih =>
    have fitRest : ∀ q ∈ rest, ¬ q.Unfit limits := fun q hq => fit q (by simp [hq])
    simp only [groupFrom]
    split
    next admitted =>
      have later : ∀ q ∈ opened.points, q.key ≤ p.key := fun q hq =>
        (List.pairwise_append.mp sorted).2.2 q hq p (by simp)
      exact ih (h.extend (fit p (by simp)) later admitted) fitRest (by simpa using sorted)
    next refused =>
      intro b hb
      rcases List.mem_cons.mp hb with rfl | hb
      · exact h
      · exact ih (Batch.WellFormed.single (fit p (by simp)) _) fitRest
          (by simpa using (List.pairwise_append.mp sorted).2.1) b hb

/-- The batches of fit and sorted points: they hold the points in order, they are numbered from
zero, and each is well-formed. -/
theorem groupPoints_spec {limits : Limits} {points : List Point}
    (fit : ∀ p ∈ points, ¬ p.Unfit limits)
    (sorted : points.Pairwise fun p q => p.key ≤ q.key) :
    (groupPoints limits points).flatMap Batch.points = points ∧
      ∀ (i : Nat) (b : Batch), (groupPoints limits points)[i]? = some b →
        b.index = i ∧ b.WellFormed limits := by
  cases points with
  | nil => simp [groupPoints]
  | cons p rest =>
    refine ⟨flatMap_groupFrom limits _ rest, fun i b h => ⟨?_, ?_⟩⟩
    · rw [index_groupFrom limits _ rest h, Batch.single_index, Nat.zero_add]
    · exact wellFormed_groupFrom (Batch.WellFormed.single (fit p (by simp)) 0)
        (fun q hq => fit q (by simp [hq])) (by simpa using sorted) b (List.mem_of_getElem? h)

/-! ## Plans -/

/-- Planning succeeds exactly if every point is fit. -/
theorem plan_eq_ok_iff {limits : Limits} {channel : UInt16} {points : List Point} {result : Plan} :
    plan limits channel points = .ok result ↔
      (∀ p ∈ points, ¬ p.Unfit limits) ∧ result = ⟨groupPoints limits (sortPoints points)⟩ := by
  have mem : ∀ p, p ∈ sortPoints points ↔ p ∈ points := fun p =>
    (stablySorted_sortPoints points).perm.mem_iff
  rw [plan_eq]
  cases found : (sortPoints points).find? fun p => p.Unfit limits with
  | none =>
    have fit : ∀ p ∈ points, ¬ p.Unfit limits := by
      intro p hp
      simpa using List.find?_eq_none.mp found p ((mem p).mpr hp)
    constructor
    · intro h
      exact ⟨fit, (Except.ok.inj h).symm⟩
    · rintro ⟨-, rfl⟩
      rfl
  | some p =>
    have unfit : p.Unfit limits := by simpa using List.find?_some found
    constructor
    · intro h
      cases h
    · rintro ⟨fit, -⟩
      exact absurd unfit (fit p ((mem p).mp (List.mem_of_find?_eq_some found)))

/-- Planning fails with the defect of the first unfit point in order. -/
theorem plan_eq_error_iff {limits : Limits} {channel : UInt16} {points : List Point}
    {defect : Defect} :
    plan limits channel points = .error defect ↔
      ∃ before p after, sortPoints points = before ++ p :: after ∧
        (∀ q ∈ before, ¬ q.Unfit limits) ∧ p.Unfit limits ∧
        defect = p.defect limits channel := by
  rw [plan_eq]
  constructor
  · intro h
    cases found : (sortPoints points).find? fun p => p.Unfit limits with
    | none => simp [found] at h
    | some p =>
      obtain ⟨unfit, before, after, split, fit⟩ := List.find?_eq_some_iff_append.mp found
      simp only [found, Except.error.injEq] at h
      exact ⟨before, p, after, split, by simpa using fit, by simpa using unfit, h.symm⟩
  · rintro ⟨before, p, after, split, fit, unfit, rfl⟩
    have found : ((sortPoints points).find? fun p => p.Unfit limits) = some p :=
      List.find?_eq_some_iff_append.mpr
        ⟨by simpa using unfit, before, after, split, by simpa using fit⟩
    simp [found]

/-- Planning fails exactly if a point is unfit, and then names the first such point in the
order of keys.  Otherwise the plan's batches hold the stably sorted points, in order and one
batch after the other, and each batch has its number and is well-formed. -/
theorem plan_structure (limits : Limits) (channel : UInt16) (points : List Point) :
    ∃ sorted, StablySorted points sorted ∧
      ((∃ defect, plan limits channel points = .error defect) ↔
        ∃ p ∈ points, p.Unfit limits) ∧
      (∀ defect, plan limits channel points = .error defect →
        ∃ before p after, sorted = before ++ p :: after ∧
          (∀ q ∈ before, ¬ q.Unfit limits) ∧ p.Unfit limits ∧
          defect = p.defect limits channel) ∧
      (∀ result, plan limits channel points = .ok result →
        result.batches.flatMap Batch.points = sorted ∧
          ∀ (i : Nat) (b : Batch), result.batches[i]? = some b →
            b.index = i ∧ b.WellFormed limits) := by
  have sorted := stablySorted_sortPoints points
  refine ⟨sortPoints points, sorted, ⟨?_, ?_⟩, fun _ h => plan_eq_error_iff.mp h, ?_⟩
  · rintro ⟨defect, failed⟩
    obtain ⟨before, p, after, split, -, unfit, -⟩ := plan_eq_error_iff.mp failed
    exact ⟨p, sorted.perm.mem_iff.mp (by simp [split]), unfit⟩
  · rintro ⟨p, hp, unfit⟩
    cases planned : plan limits channel points with
    | error defect => exact ⟨defect, rfl⟩
    | ok result => exact absurd unfit ((plan_eq_ok_iff.mp planned).1 p hp)
  · intro result planned
    obtain ⟨fit, rfl⟩ := plan_eq_ok_iff.mp planned
    exact groupPoints_spec (fun p hp => fit p (sorted.perm.mem_iff.mp hp)) sorted.ordered

end Fieldbus
