import Fieldbus.Config.Check

/-!
# Accepted channels

What passing the checks of a configuration says about a channel and its points.
`Point.Checked` lists it for one point, and `Entry.of_toChannel` gives it for all
points of a channel, with distinct ids and a plan.

There are three ways for an entry to fare, and one lemma for each: it becomes its channel
(`Entry.toChannel_eq_ok_iff`), it has a defect, or the size of its segments overflows.
-/

namespace Fieldbus

/-! ## Points -/

/-- What a point that passes the check is. -/
structure Point.Checked (p : Point) : Prop where
  /-- Its function reads one of the four tables. -/
  read : FunctionCode.isRead p.function = true
  /-- A bit table holds truth values only. -/
  bool_of_bit : FunctionCode.isBit p.function = true → p.type = .bool
  /-- A bit position lies in a register. -/
  bit_le : ∀ bit, p.bit = some bit → bit ≤ 15
  /-- Only a truth value in a register has a bit position. -/
  bit_placed : ∀ bit, p.bit = some bit → p.type = .bool ∧ FunctionCode.isBit p.function = false
  /-- The factor is a finite number. -/
  scale : p.transform.scale.isFinite = true
  /-- The added term is a finite number. -/
  offset : p.transform.offset.isFinite = true

namespace Config

theorem checkBit_eq_ok {p : Point} (h : checkBit p = .ok ()) {bit : UInt8}
    (given : p.bit = some bit) :
    bit ≤ 15 ∧ p.type = .bool ∧ FunctionCode.isBit p.function = false := by
  unfold checkBit at h
  rw [given] at h
  simp only at h
  split at h
  next => cases h
  next inside =>
    split at h
    next => cases h
    next placed =>
      simp only [ne_eq, not_or, Decidable.not_not, Bool.not_eq_true] at placed
      exact ⟨UInt8.not_lt.mp inside, placed.1, placed.2⟩

/-- Every check of a point that passes holds. -/
theorem checked_of_checkPoint {p : Point} (h : checkPoint p = .ok ()) : p.Checked := by
  simp only [checkPoint, bind, Except.bind, throw, throwThe, MonadExceptOf.throw, pure,
    Except.pure] at h
  split at h
  next => cases h
  next read =>
    split at h
    next => cases h
    next table =>
      cases bits : checkBit p with
      | error cause => simp [bits] at h
      | ok _ =>
        simp only [bits] at h
        split at h
        next => cases h
        next finite =>
          simp only [Bool.not_eq_true, Bool.not_eq_false', Bool.or_eq_false_iff,
            Bool.and_eq_true, decide_eq_true_eq, not_and, Decidable.not_not, ne_eq] at read table finite
          exact {
            read := read
            bool_of_bit := table
            bit_le := fun _ given => (checkBit_eq_ok bits given).1
            bit_placed := fun _ given => (checkBit_eq_ok bits given).2
            scale := finite.1
            offset := finite.2 }

/-- Points that pass have distinct ids, new ones, and pass one by one. -/
theorem checked_of_checkPoints {channel : UInt16} {seen : List UInt32} {points : List Point}
    (h : checkPoints channel seen points = .ok ()) :
    (∀ p ∈ points, p.id ∉ seen ∧ p.Checked) ∧ (points.map Point.id).Nodup := by
  induction points generalizing seen with
  | nil => simp
  | cons p rest ih =>
    simp only [checkPoints, bind, Except.bind, throw, throwThe, MonadExceptOf.throw] at h
    split at h
    next => cases h
    next new =>
      cases checked : checkPoint p with
      | error cause =>
        rw [checked] at h
        cases h
      | ok _ =>
        rw [checked] at h
        obtain ⟨others, distinct⟩ := ih h
        refine ⟨?_, ?_⟩
        · intro q hq
          rcases List.mem_cons.mp hq with rfl | hq
          · exact ⟨by simpa using new, checked_of_checkPoint checked⟩
          · exact ⟨fun hs => (others q hq).1 (by simp [hs]), (others q hq).2⟩
        · rw [List.map_cons, List.nodup_cons]
          refine ⟨?_, distinct⟩
          intro repeated
          obtain ⟨q, hq, same⟩ := List.mem_map.mp repeated
          exact (others q hq).1 (by simp [same])

/-! ## Channels -/

namespace Entry

variable {e : Entry} {c : Channel} {defect : Defect}

theorem toChannel_eq (e : Entry) : e.toChannel =
    match e.check with
    | .error defect => .error (.refused defect)
    | .ok _ =>
      if UInt64.size ≤ segmentBytes e.logging.maxSegmentMb then .error .overflow
      else .ok e.channel := by
  rw [toChannel]
  -- The comparison is decided here, since reducing it would count to 2⁶⁴.
  by_cases large : UInt64.size ≤ segmentBytes e.logging.maxSegmentMb
  · simp only [if_pos large]
    cases e.check with
    | error defect => rfl
    | ok _ => rfl
  · simp only [if_neg large]
    cases e.check with
    | error defect => rfl
    | ok _ => rfl

theorem toChannel_eq_ok_iff : e.toChannel = .ok c ↔
    e.check = .ok () ∧ segmentBytes e.logging.maxSegmentMb < UInt64.size ∧ c = e.channel := by
  rw [toChannel_eq]
  cases e.check with
  | error defect => simp
  | ok _ =>
    dsimp only
    split
    next large => exact ⟨nofun, fun ⟨_, fits, _⟩ => absurd large (Nat.not_le.mpr fits)⟩
    next fits =>
      constructor
      · intro made
        exact ⟨rfl, Nat.not_le.mp fits, (Except.ok.inj made).symm⟩
      · rintro ⟨-, -, rfl⟩
        rfl

theorem toChannel_eq_refused_iff : e.toChannel = .error (.refused defect) ↔
    e.check = .error defect := by
  rw [toChannel_eq]
  cases e.check with
  | error other => simp
  | ok _ =>
    dsimp only
    split <;> simp

theorem toChannel_eq_overflow_iff : e.toChannel = .error .overflow ↔
    e.check = .ok () ∧ UInt64.size ≤ segmentBytes e.logging.maxSegmentMb := by
  rw [toChannel_eq]
  cases e.check with
  | error defect => simp
  | ok _ =>
    dsimp only
    split
    next large => exact ⟨fun _ => ⟨rfl, large⟩, fun _ => rfl⟩
    next fits => exact ⟨nofun, fun ⟨_, large⟩ => absurd large fits⟩

/-- What passing all checks says: the points have distinct ids and are checked, and they have a
plan. -/
theorem of_check (passed : e.check = .ok ()) :
    checkEntry e = .ok () ∧ (∀ p ∈ e.points, p.Checked) ∧ (e.points.map Point.id).Nodup ∧
      ∃ result, plan e.limits e.id e.points = .ok result := by
  simp only [check, bind, Except.bind] at passed
  split at passed
  next => cases passed
  next whole =>
    split at passed
    next => cases passed
    next checked =>
      split at passed
      next => cases passed
      next result planned =>
        obtain ⟨points, distinct⟩ := checked_of_checkPoints checked
        refine ⟨?_, fun p member => (points p member).2, distinct, result, planned⟩
        cases checked : checkEntry e with
        | error cause =>
          rw [checked] at whole
          cases whole
        | ok _ => rfl

/-- An accepted channel is that of its entry.  Its points have distinct ids and are checked, and
they have a plan. -/
theorem of_toChannel (h : e.toChannel = .ok c) :
    c = e.channel ∧ (∀ p ∈ c.points, p.Checked) ∧ (c.points.map Point.id).Nodup ∧
      ∃ result, c.plan = .ok result := by
  obtain ⟨passed, -, rfl⟩ := toChannel_eq_ok_iff.mp h
  obtain ⟨-, points, distinct, planned⟩ := of_check passed
  exact ⟨rfl, points, distinct, planned⟩

end Entry

end Config

end Fieldbus
