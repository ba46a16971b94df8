import Mathlib.Data.List.Induction
import Mathlib.Data.List.TakeWhile
import Fieldbus.Proofs.Store.View

/-!
# The store as a history

A store that began empty shows what its history says and nothing else.  The history is flat: an
operation amounts to writes of single points (`StoreOp.writes`), one after the other, and a removal
forgets those of its channel that were made before.  A key shows the last of them that is for it
(`Store.shows_last`).

Each operation has one equation through the view (`Store.get?_apply`), and the history follows by
induction on its end.
-/

namespace Fieldbus

/-! ## Operations -/

/-- An operation on the store, with its time. -/
inductive StoreOp where
  | write (w : StoreWrite) (time : Int)
  /-- Publishes the readings of a poll cycle. -/
  | cycle (channel : UInt16) (readings : List Reading) (time : Int)
  /-- Publishes what a command put on a device. -/
  | ack (channel : UInt16) (p : Point) (value : Binary64) (time : Int)
  /-- Forgets a channel. -/
  | remove (channel : UInt16)

namespace Store

def apply (s : Store) : StoreOp → Store
  | .write w time => s.write w time
  | .cycle channel readings time => s.writeAll (cycleWrites channel readings) time
  | .ack channel p value time => s.writeAll [ackWrite channel p value] time
  | .remove channel => s.removeChannel channel

def applyAll (s : Store) (ops : List StoreOp) : Store := ops.foldl apply s

theorem applyAll_append (s : Store) (earlier later : List StoreOp) :
    s.applyAll (earlier ++ later) = (s.applyAll earlier).applyAll later := List.foldl_append

/-- The samples of one category of a channel, by point. -/
def snapshot (s : Store) (channel : UInt16) (category : Category) : Table UInt32 Sample :=
  ⟨s.category channel category⟩

end Store

/-! ## The flat history -/

/-- The last sample that is written to a key. -/
def sampleAt? (key : StoreKey) (writes : List (StoreKey × Sample)) : Option Sample :=
  lastValue? (fun w => if w.1 = key then some w.2 else none) writes

namespace StoreOp

/-- The writes of single points that an operation amounts to. -/
def writes : StoreOp → List (StoreKey × Sample)
  | write w time =>
    w.values.map fun (point, value) => (⟨w.channel, w.category, point⟩, ⟨value, time⟩)
  | cycle channel readings time =>
    readings.map fun r => (⟨channel, r.category, r.point⟩, ⟨r.value, time⟩)
  | ack channel p value time => [(⟨channel, p.category, p.id⟩, ⟨value, time⟩)]
  | remove _ => []

/-- The write of one reading. -/
def ofReading (channel : UInt16) (time : Int) (r : Reading) : StoreOp :=
  write ⟨channel, r.category, [(r.point, r.value)]⟩ time

def removes (channel : UInt16) : StoreOp → Bool
  | remove c => c = channel
  | _ => false

/-- The operations after the last removal of a channel. -/
def sinceRemoval (channel : UInt16) (ops : List StoreOp) : List StoreOp :=
  (ops.reverse.takeWhile fun op => !op.removes channel).reverse

/-- The last sample that is written to a key after the last removal of its channel. -/
def lastSample? (key : StoreKey) (ops : List StoreOp) : Option Sample :=
  sampleAt? key ((sinceRemoval key.channel ops).flatMap writes)

theorem sinceRemoval_concat (channel : UInt16) (ops : List StoreOp) (op : StoreOp) :
    sinceRemoval channel (ops ++ [op]) =
      if op.removes channel then [] else sinceRemoval channel ops ++ [op] := by
  cases removed : op.removes channel with
  | true => simp [sinceRemoval, removed]
  | false => simp [sinceRemoval, removed]

/-- A removal forgets, and any other operation goes behind what was written before. -/
theorem lastSample?_concat (key : StoreKey) (ops : List StoreOp) (op : StoreOp) :
    lastSample? key (ops ++ [op]) =
      (sampleAt? key op.writes).or
        (if op.removes key.channel then none else lastSample? key ops) := by
  unfold lastSample?
  rw [sinceRemoval_concat]
  cases removed : op.removes key.channel with
  | true =>
    cases op with
    | remove channel => rfl
    | write _ _ | cycle _ _ _ | ack _ _ _ _ => cases removed
  | false => simp [sampleAt?, lastValue?_append]

theorem lastSample?_of_kept {key : StoreKey} {ops : List StoreOp}
    (kept : ∀ op ∈ ops, op.removes key.channel = false) :
    lastSample? key ops = sampleAt? key (ops.flatMap writes) := by
  have all : sinceRemoval key.channel ops = ops := by
    rw [sinceRemoval, List.takeWhile_eq_self_iff.mpr, List.reverse_reverse]
    intro op member
    simp [kept op (List.mem_reverse.mp member)]
  rw [lastSample?, all]

end StoreOp

/-! ## Values and samples -/

theorem lastValue?_map {α β γ : Type} (f : α → Option β) (g : β → γ) (items : List α) :
    lastValue? (fun a => (f a).map g) items = (lastValue? f items).map g := by
  induction items with
  | nil => rfl
  | cons a rest ih =>
    rw [lastValue?_cons, lastValue?_cons, ih]
    cases lastValue? f rest with
    | some _ => rfl
    | none => rfl

/-- Writes of single points of one channel leave the last value for the key, at their time. -/
theorem sampleAt?_map {α : Type} (key : StoreKey) (place : α → StoreKey) (value : α → Binary64)
    (time : Int) (items : List α) :
    sampleAt? key (items.map fun a => (place a, ⟨value a, time⟩)) =
      (lastValue? (fun a => if place a = key then some (value a) else none) items).map
        (⟨·, time⟩) := by
  rw [sampleAt?, ← List.filterMap_eq_map, lastValue?_filterMap, ← lastValue?_map]
  congr 1
  funext a
  by_cases own : place a = key
  · simp [own]
  · simp [own]

theorem sampleAt?_write (w : StoreWrite) (time : Int) (key : StoreKey) :
    sampleAt? key (StoreOp.write w time).writes = (w.valueAt? key).map (⟨·, time⟩) := by
  refine (sampleAt?_map key (fun v => ⟨w.channel, w.category, v.1⟩) Prod.snd time w.values).trans ?_
  unfold StoreWrite.valueAt?
  obtain ⟨channel, category, point⟩ := key
  by_cases table : w.channel = channel ∧ w.category = category
  · simp [table]
  · have elsewhere : ∀ p : UInt32,
        (⟨w.channel, w.category, p⟩ : StoreKey) ≠ ⟨channel, category, point⟩ := fun p same =>
      table ⟨congrArg StoreKey.channel same, congrArg StoreKey.category same⟩
    have none : lastValue? (fun v : UInt32 × Binary64 =>
        if (⟨w.channel, w.category, v.1⟩ : StoreKey) = ⟨channel, category, point⟩ then some v.2
        else none) w.values = none :=
      lastValue?_eq_none_iff.mpr fun v _ => if_neg (elsewhere v.1)
    rw [none, if_neg table]

theorem sampleAt?_cycle (channel : UInt16) (readings : List Reading) (time : Int)
    (key : StoreKey) :
    sampleAt? key (StoreOp.cycle channel readings time).writes =
      (StoreWrite.valueOf? (cycleWrites channel readings) key).map (⟨·, time⟩) := by
  refine (sampleAt?_map key (fun r => ⟨channel, r.category, r.point⟩) Reading.value time
    readings).trans ?_
  rw [valueOf?_cycleWrites]
  congr 1
  by_cases own : channel = key.channel
  · subst own
    rw [if_pos rfl]
    congr 1
    funext r
    obtain ⟨_, category, point⟩ := key
    simp [Reading.valueAt?]
  · rw [if_neg own]
    exact lastValue?_eq_none_iff.mpr fun r _ =>
      if_neg fun same => own (congrArg StoreKey.channel same)

namespace Store

/-! ## One operation -/

/-- An operation is seen at the keys that it writes, and a removal at those of its channel. -/
theorem get?_apply (s : Store) (op : StoreOp) (key : StoreKey) :
    (s.apply op).get? key =
      (sampleAt? key op.writes).or (if op.removes key.channel then none else s.get? key) := by
  cases op with
  | write w time => exact (sampleAt?_write w time key).symm ▸ get?_write s w time key
  | cycle channel readings time =>
    rw [sampleAt?_cycle]
    exact get?_writeAll s (cycleWrites channel readings) time key
  | ack channel p value time =>
    refine (get?_writeAll s [ackWrite channel p value] time key).trans ?_
    rw [valueOf?_ackWrite]
    simp only [StoreOp.writes, sampleAt?, lastValue?_cons, lastValue?_nil, Option.none_or]
    split
    next => rfl
    next => rfl
  | remove channel =>
    refine (get?_removeChannel s channel key).trans ?_
    simp [StoreOp.writes, StoreOp.removes, sampleAt?, eq_comm]

theorem get?_applyAll (s : Store) (ops : List StoreOp) (key : StoreKey) :
    (s.applyAll ops).get? key =
      (StoreOp.lastSample? key ops).or
        (if ops.any (StoreOp.removes key.channel) then none else s.get? key) := by
  induction ops using List.reverseRecOn with
  | nil => rfl
  | append_singleton ops op ih =>
    rw [applyAll_append, applyAll, List.foldl_cons, List.foldl_nil, get?_apply, ih,
      StoreOp.lastSample?_concat, Option.or_assoc]
    cases removed : op.removes key.channel with
    | true => simp [removed]
    | false => simp [removed]

/-! ## Snapshots -/

/-- No key has two samples. -/
def Distinct (s : Store) : Prop := s.samples.keys.Nodup

theorem Distinct.write {s : Store} (h : s.Distinct) (w : StoreWrite) (time : Int) :
    (s.write w time).Distinct := by
  unfold Store.write
  generalize w.values = values
  induction values generalizing s with
  | nil => exact h
  | cons v rest ih => exact ih (Table.nodup_keys_insert h _ _)

theorem Distinct.writeAll {s : Store} (h : s.Distinct) (writes : List StoreWrite) (time : Int) :
    (s.writeAll writes time).Distinct := by
  unfold Store.writeAll
  induction writes generalizing s with
  | nil => exact h
  | cons w rest ih => exact ih (h.write w time)

theorem Distinct.apply {s : Store} (h : s.Distinct) (op : StoreOp) : (s.apply op).Distinct := by
  cases op with
  | write w time => exact h.write w time
  | cycle channel readings time => exact h.writeAll _ time
  | ack channel p value time => exact h.writeAll _ time
  | remove channel => exact h.sublist (List.filter_sublist.map Prod.fst)

theorem distinct_applyAll (ops : List StoreOp) : (applyAll {} ops).Distinct := by
  induction ops using List.reverseRecOn with
  | nil => exact List.nodup_nil
  | append_singleton ops op ih =>
    rw [applyAll_append]
    exact ih.apply op

theorem mem_category {s : Store} {channel : UInt16} {category : Category} {point : UInt32}
    {sample : Sample} : (point, sample) ∈ s.category channel category ↔
      (⟨channel, category, point⟩, sample) ∈ s.samples.entries := by
  unfold Store.category
  rw [List.mem_mergeSort, List.mem_filterMap]
  constructor
  · rintro ⟨⟨⟨channel', category', point'⟩, sample'⟩, member, taken⟩
    split at taken
    next own =>
      obtain ⟨rfl, rfl⟩ := own
      cases taken
      exact member
    next => cases taken
  · intro member
    exact ⟨_, member, if_pos ⟨rfl, rfl⟩⟩

theorem Distinct.snapshot {s : Store} (h : s.Distinct) (channel : UInt16) (category : Category) :
    (s.snapshot channel category).keys.Nodup := by
  have once : (s.samples.entries.filterMap fun entry =>
      if entry.1.channel = channel ∧ entry.1.category = category then some (entry.1.point, entry.2)
      else none).Pairwise fun a b => a.1 ≠ b.1 := by
    rw [List.pairwise_filterMap]
    refine (List.pairwise_map.mp h).imp fun {e e'} apart a taken a' taken' same => ?_
    -- Within one category of a channel the point is all there is to a key.
    split at taken
    next own =>
      split at taken'
      next own' =>
        obtain ⟨⟨_, _, _⟩, _⟩ := e
        obtain ⟨⟨_, _, _⟩, _⟩ := e'
        obtain ⟨rfl, rfl⟩ := own
        obtain ⟨rfl, rfl⟩ := own'
        cases taken
        cases taken'
        exact apart (congrArg (StoreKey.mk _ _) same)
      next => cases taken'
    next => cases taken
  have sorted := ((List.mergeSort_perm _ fun a b : UInt32 × Sample => a.1 ≤ b.1).pairwise_iff
    fun h => Ne.symm h).mpr once
  exact List.pairwise_map.mpr sorted

/-- A snapshot shows what the store shows. -/
theorem Distinct.get?_snapshot {s : Store} (h : s.Distinct) (key : StoreKey) :
    (s.snapshot key.channel key.category).get? key.point = s.get? key := by
  ext sample
  rw [Store.get?, ← Table.mem_entries_iff h,
    ← Table.mem_entries_iff (h.snapshot key.channel key.category)]
  exact mem_category

/-! ## Histories -/

/-- What is shown before is all that matters for what is shown afterwards. -/
theorem get?_applyAll_congr {s s' : Store} {key : StoreKey} (same : s.get? key = s'.get? key)
    (ops : List StoreOp) : (s.applyAll ops).get? key = (s'.applyAll ops).get? key := by
  rw [get?_applyAll, get?_applyAll, same]

/-- A cycle may as well write its readings one by one. -/
theorem get?_apply_cycle (s : Store) (channel : UInt16) (readings : List Reading) (time : Int)
    (key : StoreKey) :
    (s.apply (.cycle channel readings time)).get? key =
      (s.applyAll (readings.map (StoreOp.ofReading channel time))).get? key := by
  have kept : ∀ op ∈ readings.map (StoreOp.ofReading channel time),
      op.removes key.channel = false := by
    intro op member
    obtain ⟨r, -, rfl⟩ := List.mem_map.mp member
    rfl
  have none : (readings.map (StoreOp.ofReading channel time)).any
      (StoreOp.removes key.channel) = false := by
    rw [List.any_eq_false]
    intro op member
    simp [kept op member]
  rw [get?_apply, get?_applyAll, none, StoreOp.lastSample?_of_kept kept, List.flatMap_map]
  congr 2
  exact List.map_eq_flatMap ..

/-- A store that began empty, and a snapshot of it, show at a key the last single write to it after
the last removal of its channel.  A cycle may as well write its readings one by one, and an
operation that neither writes the key nor removes its channel makes no difference to it. -/
theorem shows_last (ops : List StoreOp) (key : StoreKey) :
    (applyAll {} ops).get? key = StoreOp.lastSample? key ops ∧
    ((applyAll {} ops).snapshot key.channel key.category).get? key.point =
      StoreOp.lastSample? key ops ∧
    ((applyAll {} ops).snapshot key.channel key.category).keys.Nodup ∧
    (∀ channel readings time later,
      (applyAll {} (ops ++ .cycle channel readings time :: later)).get? key =
        (applyAll {} (ops ++ readings.map (StoreOp.ofReading channel time) ++ later)).get? key) ∧
    ∀ op, (∀ w ∈ op.writes, w.1 ≠ key) → op.removes key.channel = false →
      (applyAll {} (ops ++ [op])).get? key = (applyAll {} ops).get? key := by
  have last : (applyAll {} ops).get? key = StoreOp.lastSample? key ops := by
    rw [get?_applyAll, get?_empty, ite_self, Option.or_none]
  have distinct := distinct_applyAll ops
  refine ⟨last, (distinct.get?_snapshot key).trans last, distinct.snapshot .., ?_, ?_⟩
  · intro channel readings time later
    rw [applyAll_append, applyAll_append, applyAll_append]
    exact get?_applyAll_congr (get?_apply_cycle ..) later
  · intro op foreign kept
    have unwritten : sampleAt? key op.writes = none :=
      lastValue?_eq_none_iff.mpr fun w member => if_neg (foreign w member)
    rw [applyAll_append]
    refine (get?_apply _ op key).trans ?_
    rw [unwritten, kept, Option.none_or]
    rfl

/-- A cycle writes a point twice, another channel is removed, and only a neighbour is written
again. -/
example :
    (applyAll {} [.cycle 1 [⟨1, .telemetry, .ofNat 3⟩, ⟨2, .telemetry, .ofNat 4⟩,
        ⟨1, .telemetry, .ofNat 5⟩] 10, .remove 2,
      .write ⟨1, .telemetry, [(2, .ofNat 6)]⟩ 20]).get? ⟨1, .telemetry, 1⟩ =
      some ⟨.ofNat 5, 10⟩ := by decide +kernel

end Store

end Fieldbus
