import Mathlib.Data.List.Forall2
import Fieldbus.Poll.Poller
import Fieldbus.Proofs.Activity.Trace

/-!
# What a poll loop reads

The reads of a trace are taken together batch by batch.  The tries of one batch are an `Attempt`,
in which no try follows one that gave words that decode.  A pass over batches makes a list of
attempts, and its tally is the sum over them (`Tally.addAll`).
-/

namespace Fieldbus

/-! ## Steps of reading -/

/-- A step that reading batches takes. -/
def Step.IsReading : Step → Prop
  | .lock _ | .unlock _ | .read .. | .frames _ | .isCancelled _ | .now | .clock | .sleep _
  | .pause .. | .log _ => True
  | _ => False

theorem Step.IsReading.isInner {s : Step} (h : s.IsReading) : s.IsInner := by
  cases s with
  | plan _ | write _ _ _ | publish _ | forget _ => exact h.elim
  | _ => trivial

/-- The batch that the event reads over a link, and the answer. -/
def Event.read? : Event → Option (LinkId × Batch × Except Fault (List UInt16))
  | ⟨.read link b, answer⟩ => some (link, b, answer)
  | _ => none

/-! ## Readings -/

namespace Batch

/-- The readings that an answer gives, if it has words that decode. -/
def readings? (b : Batch) (answer : Except Fault (List UInt16)) : Option (List Reading) :=
  (answer >>= b.decode).toOption

theorem readings?_eq_some_iff {b : Batch} {answer : Except Fault (List UInt16)}
    {readings : List Reading} :
    b.readings? answer = some readings ↔
      ∃ words, answer = .ok words ∧ b.decode words = .ok readings := by
  cases answer with
  | error fault => simp [readings?, bind, Except.bind, Except.toOption]
  | ok words =>
    cases decoded : b.decode words with
    | error fault => simp [readings?, bind, Except.bind, Except.toOption, decoded]
    | ok made => simp [readings?, bind, Except.bind, Except.toOption, decoded]

/-- The reading of a point has its id and its category. -/
theorem eq_of_readPoint {b : Batch} {words : List UInt16} {p : Point} {r : Reading}
    (h : b.readPoint words p = .ok r) : r = ⟨p.id, p.category, r.value⟩ := by
  unfold readPoint at h
  simp only at h
  split at h
  next => cases h
  next =>
    cases value : p.valueOf (words.drop (p.address - b.start).toNat) with
    | error fault =>
      rw [value] at h
      cases h
    | ok v =>
      rw [value] at h
      cases h
      rfl

/-- Words that decode give one reading for each point. -/
theorem forall₂_of_decode {b : Batch} {words : List UInt16} {readings : List Reading}
    (h : b.decode words = .ok readings) :
    List.Forall₂ (fun p r => b.readPoint words p = .ok r) b.points readings := by
  unfold decode at h
  split at h
  next => cases h
  next =>
    generalize b.points = points at h
    induction points generalizing readings with
    | nil =>
      cases h
      exact .nil
    | cons p rest ih =>
      rw [List.mapM_cons] at h
      cases first : b.readPoint words p with
      | error fault =>
        rw [first] at h
        cases h
      | ok r =>
        cases others : rest.mapM (b.readPoint words) with
        | error fault =>
          rw [first, others] at h
          cases h
        | ok made =>
          rw [first, others] at h
          cases h
          exact .cons first (ih others)

end Batch

namespace Poll

/-! ## Attempts -/

/-- The tries of a batch.  Only the last one may have given words that decode. -/
structure Attempt where
  batch : Batch
  /-- The answers to the tries that another one followed. -/
  earlier : List (Except Fault (List UInt16))
  last : Except Fault (List UInt16)
  failed : ∀ answer ∈ earlier, batch.readings? answer = none

namespace Attempt

variable (a : Attempt)

/-- The answers to all tries. -/
def answers : List (Except Fault (List UInt16)) := a.earlier ++ [a.last]

/-- One of the tries gave words that decode. -/
def succeeded : Bool := a.answers.any fun answer => (a.batch.readings? answer).isSome

/-- What the batch gave. -/
def readings : List Reading := (a.batch.readings? a.last).getD []

/-- The reads over a link that the tries are. -/
def reads (link : LinkId) : List (LinkId × Batch × Except Fault (List UInt16)) :=
  a.answers.map fun answer => (link, a.batch, answer)

/-- A try gave words that decode, with this value for the point. -/
def Gives (p : Point) (v : Binary64) : Prop :=
  ∃ words readings, .ok words ∈ a.answers ∧ a.batch.decode words = .ok readings ∧
    a.batch.readPoint words p = .ok ⟨p.id, p.category, v⟩

theorem succeeded_eq : a.succeeded = (a.batch.readings? a.last).isSome := by
  have none : a.earlier.any (fun answer => (a.batch.readings? answer).isSome) = false := by
    rw [List.any_eq_false]
    intro answer member
    simp [a.failed answer member]
  simp [succeeded, answers, none]

variable {a}

theorem readings_of_not_succeeded (h : a.succeeded = false) : a.readings = [] := by
  rw [succeeded_eq, Option.isSome_eq_false_iff, Option.isNone_iff_eq_none] at h
  simp [readings, h]

/-- An attempt that succeeded gives one reading for each point of its batch. -/
theorem forall₂_of_succeeded (h : a.succeeded = true) :
    List.Forall₂ (fun p r => r = ⟨p.id, p.category, r.value⟩ ∧ a.Gives p r.value)
      a.batch.points a.readings := by
  rw [succeeded_eq] at h
  obtain ⟨made, given⟩ := Option.isSome_iff_exists.mp h
  obtain ⟨words, answered, decoded⟩ := Batch.readings?_eq_some_iff.mp given
  have member : .ok words ∈ a.answers := by simp [answers, answered]
  have same : a.readings = made := by simp [readings, given]
  rw [same]
  refine (Batch.forall₂_of_decode decoded).imp fun p r read => ?_
  have shape := Batch.eq_of_readPoint read
  rw [shape] at read
  exact ⟨shape, words, made, member, decoded, read⟩

theorem ids_readings (h : a.succeeded = true) :
    a.readings.map Reading.point = a.batch.points.map Point.id := by
  have pointwise := forall₂_of_succeeded h
  generalize a.batch.points = points, a.readings = readings at pointwise ⊢
  induction pointwise with
  | nil => rfl
  | cons read _ ih => rw [List.map_cons, List.map_cons, ih, read.1]

theorem exists_reading (h : a.succeeded = true) {p : Point} (hp : p ∈ a.batch.points) :
    ∃ v, a.Gives p v ∧ ⟨p.id, p.category, v⟩ ∈ a.readings := by
  have pointwise := forall₂_of_succeeded h
  generalize a.batch.points = points, a.readings = readings at pointwise hp ⊢
  induction pointwise with
  | nil => cases hp
  | cons read _ ih =>
    rcases List.mem_cons.mp hp with rfl | hp
    · exact ⟨_, read.2, List.mem_cons.mpr (.inl read.1.symm)⟩
    · obtain ⟨v, gives, member⟩ := ih hp
      exact ⟨v, gives, List.mem_cons_of_mem _ member⟩

/-- A reading is of a point of a batch that succeeded. -/
theorem exists_point {r : Reading} (hr : r ∈ a.readings) :
    a.succeeded = true ∧ ∃ p ∈ a.batch.points, r = ⟨p.id, p.category, r.value⟩ := by
  cases done : a.succeeded with
  | false =>
    rw [readings_of_not_succeeded done] at hr
    cases hr
  | true =>
    refine ⟨rfl, ?_⟩
    have pointwise := forall₂_of_succeeded done
    generalize a.batch.points = points, a.readings = readings at pointwise hr ⊢
    induction pointwise with
    | nil => cases hr
    | cons read _ ih =>
      rcases List.mem_cons.mp hr with rfl | hr
      · exact ⟨_, List.mem_cons_self, read.1⟩
      · obtain ⟨p, hp, shape⟩ := ih hr
        exact ⟨p, List.mem_cons_of_mem _ hp, shape⟩

end Attempt

/-! ## Tallies -/

/-- The tally after some attempts. -/
def Tally.addAll (t : Tally) (attempts : List Attempt) : Tally :=
  attempts.foldl (fun t a => t.add (a.batch.readings? a.last)) t

namespace Tally

variable (t : Tally) (attempts : List Attempt)

theorem readings_addAll :
    (t.addAll attempts).readings = t.readings ++ attempts.flatMap Attempt.readings := by
  induction attempts generalizing t with
  | nil => simp [addAll]
  | cons a rest ih =>
    have further := ih (t.add (a.batch.readings? a.last))
    cases given : a.batch.readings? a.last with
    | none => simpa [addAll, add, Attempt.readings, given] using further
    | some made => simpa [addAll, add, Attempt.readings, given] using further

theorem succeeded_addAll :
    (t.addAll attempts).succeeded = t.succeeded + attempts.countP Attempt.succeeded := by
  induction attempts generalizing t with
  | nil => rfl
  | cons a rest ih =>
    have further := ih (t.add (a.batch.readings? a.last))
    have own := a.succeeded_eq
    cases given : a.batch.readings? a.last with
    | none =>
      rw [given] at further own
      rw [List.countP_cons_of_neg (by simp [own])]
      simpa only [addAll, add, List.foldl_cons, given] using further
    | some made =>
      rw [given] at further own
      rw [List.countP_cons_of_pos (by simp [own])]
      simp only [addAll, add, List.foldl_cons, given] at further ⊢
      omega

theorem total_addAll :
    (t.addAll attempts).succeeded + (t.addAll attempts).failed =
      t.succeeded + t.failed + attempts.length := by
  induction attempts generalizing t with
  | nil => rfl
  | cons a rest ih =>
    have further := ih (t.add (a.batch.readings? a.last))
    simp only [addAll, List.foldl_cons, List.length_cons] at further ⊢
    rw [further]
    cases a.batch.readings? a.last with
    | none => simp only [add]; omega
    | some made => simp only [add]; omega

end Tally

/-! ## Steps of a pass over batches -/

section

variable {c : Channel} {link : LinkId} {b : Batch}

open Activity (Only ask)

theorem logRead_isReading {started : Nanos} {made : Nat} {fault : Option Fault}
    {frames : Option Log.Frames} :
    (logRead c b started made fault frames).Only Step.IsReading :=
  .ask_bind trivial fun _ => .ask_bind trivial fun _ => .ask trivial

theorem readOnce_isReading : (readOnce c link b).Only Step.IsReading := by
  refine .ask_bind trivial fun _ => .ask_bind trivial fun result => ?_
  have tail (frames : Option Log.Frames) : (do
      ask (.unlock link)
      return (result >>= b.decode, frames) : Activity _).Only Step.IsReading :=
    .ask_bind trivial fun _ => trivial
  split
  · exact .bind (.bind (.ask trivial) fun _ => trivial) tail
  · exact Only.bind trivial tail

theorem tryBatch_isReading {started : Nanos} {made left : Nat} :
    (tryBatch c link b started made left).Only Step.IsReading := by
  induction left generalizing made with
  | zero =>
    refine .bind readOnce_isReading fun tried => ?_
    obtain ⟨result, frames⟩ := tried
    cases result with
    | ok readings => exact .bind logRead_isReading fun _ => trivial
    | error fault => exact .bind logRead_isReading fun _ => trivial
  | succ left ih =>
    refine .bind readOnce_isReading fun tried => ?_
    obtain ⟨result, frames⟩ := tried
    cases result with
    | ok readings => exact .bind logRead_isReading fun _ => trivial
    | error fault =>
      refine .ask_bind trivial fun _ => .ask_bind trivial fun cancelled => ?_
      cases cancelled with
      | true => exact .bind logRead_isReading fun _ => trivial
      | false => exact ih

theorem readBatches_isReading {first : Bool} {t : Tally} {batches : List Batch} :
    (readBatches c link first t batches).Only Step.IsReading := by
  induction batches generalizing first t with
  | nil => trivial
  | cons b rest ih =>
    have further : (readBatch c link b >>= fun result =>
        readBatches c link false (t.add result) rest).Only Step.IsReading :=
      .bind (.ask_bind trivial fun _ => tryBatch_isReading) fun _ => ih
    refine .ask_bind trivial fun cancelled => ?_
    cases cancelled with
    | true => trivial
    | false =>
      simp only [Bool.false_eq_true, if_false]
      split
      · exact .ask_bind trivial fun _ => .ask_bind trivial fun _ => further
      · exact further

end

end Poll

end Fieldbus
