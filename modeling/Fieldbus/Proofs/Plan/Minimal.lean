import Mathlib.Data.Fintype.Card
import Mathlib.Data.List.Chain
import Fieldbus.Proofs.Plan.Structure

/-!
# The size of a plan

No grouping of the points of a channel into requests has fewer requests than its plan
(`plan_size_le`).

A group is valid if one request can read it (`ValidGroup`).  Leaving a wide point out of a valid
group may open a hole, so parts of valid groups need not be valid, and a grouping cannot be turned
into the plan step by step.  Instead the first points of the batches are compared: no valid group
holds two of them (`Batch.Leads.apart`), so there are at least as many groups as batches.

*A hole.*  If a batch refused a point because of the hole before it, then every point below the
hole ends where the batch does or earlier, those of earlier batches included.  A valid group with
points on both sides would have to cross it (`Bridged.below`).

*The span.*  If it refused the point because of the span, then all later first points end there or
later, and the first point of the batch lies too far below them.

Both rest on one order: in a table, each batch ends after the one before (`Batch.Leads.mark_lt`).
-/

namespace Fieldbus

/-! ## Groups -/

/-- No point lies more than `gap` past all ends before it, the first of which is `covered`. -/
def Bridged (gap : Nat) : (covered : Nat) → List Point → Prop
  | _, [] => True
  | covered, p :: rest =>
    p.address.toNat ≤ covered + gap ∧ Bridged gap (max covered p.finish) rest

instance decidableBridged (gap : Nat) : (covered : Nat) → (points : List Point) →
    Decidable (Bridged gap covered points)
  | _, [] => .isTrue trivial
  | covered, p :: rest =>
    have := decidableBridged gap (max covered p.finish) rest
    inferInstanceAs (Decidable (_ ∧ _))

/-- Points that one request can read. -/
structure ValidGroup (limits : Limits) (g : List Point) : Prop where
  /-- They are in one table of one device. -/
  table : ∀ p ∈ g, ∀ q ∈ g, p.slave = q.slave ∧ p.function = q.function
  /-- There are points.  In the order of their addresses they leave no hole that is too wide. -/
  bridged : ∃ first rest, (first :: rest).Perm g ∧
    (first :: rest).Pairwise (fun p q => p.address ≤ q.address) ∧
    Bridged limits.gap.toNat first.finish rest
  /-- From the least address to the greatest end there are no more units than a request may ask
  for. -/
  span : ∀ p ∈ g, ∀ q ∈ g, q.finish ≤ p.address.toNat + (limits.read q.function).toNat

/-- A hole that no end reaches into is not crossed. -/
theorem Bridged.below {gap covered bottom top : Nat} {points : List Point}
    (h : Bridged gap covered points) (hole : bottom + gap < top) (start : covered ≤ bottom)
    (ends : ∀ p ∈ points, p.address.toNat < top → p.finish ≤ bottom) :
    ∀ p ∈ points, p.address.toNat < top := by
  induction points generalizing covered with
  | nil => simp
  | cons p rest ih =>
    obtain ⟨near, further⟩ := h
    have here : p.address.toNat < top := by omega
    have more : max covered p.finish ≤ bottom := max_le start (ends p (by simp) here)
    intro q hq
    rcases List.mem_cons.mp hq with rfl | hq
    · exact here
    · exact ih further more (fun r hr => ends r (by simp [hr])) q hq

/-- A valid group with a point below a hole that no end reaches into lies below it. -/
theorem ValidGroup.below {limits : Limits} {g : List Point} (h : ValidGroup limits g)
    {bottom top : Nat} (hole : bottom + limits.gap.toNat < top)
    (ends : ∀ p ∈ g, p.address.toNat < top → p.finish ≤ bottom) {p : Point} (hp : p ∈ g)
    (low : p.address.toNat < top) : ∀ q ∈ g, q.address.toNat < top := by
  obtain ⟨first, rest, perm, increasing, bridged⟩ := h.bridged
  have start : first.address.toNat < top := by
    rcases List.mem_cons.mp (perm.mem_iff.mpr hp) with rfl | hp
    · exact low
    · have := UInt16.le_iff_toNat_le.mp ((List.pairwise_cons.mp increasing).1 p hp)
      omega
  intro q hq
  rcases List.mem_cons.mp (perm.mem_iff.mpr hq) with rfl | hq
  · exact start
  · exact bridged.below hole (ends first (perm.mem_iff.mp (by simp)) start)
      (fun r hr => ends r (perm.mem_iff.mp (by simp [hr]))) q hq

/-- The holes of a list are those that the points before them leave. -/
theorem bridged_of_reach {gap : Nat} {before points : List Point} (start : before ≠ [])
    (near : ∀ earlier p later, before ++ points = earlier ++ p :: later → earlier ≠ [] →
      p.address.toNat ≤ reach earlier + gap) : Bridged gap (reach before) points := by
  induction points generalizing before with
  | nil => trivial
  | cons p rest ih =>
    refine ⟨near before p rest rfl start, ?_⟩
    have step : reach (before ++ [p]) = max (reach before) p.finish := by
      rw [reach_append]
      simp
    rw [← step]
    apply ih (by simp)
    intro earlier q later split
    exact near earlier q later (by rw [← split]; simp)

/-! ## The order of batches -/

/-- What points are ordered by once their addresses do not count: device, function, end. -/
def Point.mark (p : Point) : ℕ ×ₗ ℕ ×ₗ ℕ :=
  toLex (p.slave.toNat, toLex (p.function.toNat, p.finish))

/-- In one table of one device, marks are ordered as ends are. -/
theorem Point.finish_le_of_mark_le {p q : Point} (slave : p.slave = q.slave)
    (function : p.function = q.function) (h : p.mark ≤ q.mark) : p.finish ≤ q.finish := by
  simpa [Point.mark, Prod.Lex.toLex_le_toLex, slave, function] using h

/-- Between two points of one table there are only points of that table. -/
theorem Point.table_of_key_le {p r q : Point} (slave : p.slave = q.slave)
    (function : p.function = q.function) (pr : p.key ≤ r.key) (rq : r.key ≤ q.key) :
    r.slave = p.slave ∧ r.function = p.function := by
  simp only [Point.key, Prod.Lex.toLex_le_toLex, ← slave, ← function] at pr rq
  rw [← UInt8.toNat_inj, ← UInt8.toNat_inj]
  omega

namespace Batch

def mark (b : Batch) : ℕ ×ₗ ℕ ×ₗ ℕ :=
  toLex (b.slave.toNat, toLex (b.function.toNat, b.finish))

variable {limits : Limits} {b c : Batch} {p q : Point}

theorem WellFormed.mark_le (h : b.WellFormed limits) (hp : p ∈ b.points) : p.mark ≤ b.mark := by
  have finish := h.finish_ge p hp
  simp only [Point.mark, Batch.mark, h.slave p hp, h.function p hp, Prod.Lex.toLex_le_toLex,
    lt_irrefl, false_or, true_and]
  exact finish

/-- In the table of a batch, a point that it does not admit lies past a hole or ends past the
span. -/
theorem WellFormed.of_refused (h : b.WellFormed limits) (refused : b.admits limits p = false)
    (slave : p.slave = b.slave) (function : p.function = b.function) :
    b.finish + limits.gap.toNat < p.address.toNat ∨
      b.start.toNat + (limits.read p.function).toNat < p.finish := by
  have not : ¬ b.admits limits p = true := by simp [refused]
  have span : b.finish ≤ b.start.toNat + (limits.read p.function).toNat := by
    have := UInt16.le_iff_toNat_le.mp h.quantity_le
    rw [function]
    simp only [Batch.finish]
    omega
  simp only [admits_iff, slave, function, true_and, finishWith, not_and] at not
  rw [← function] at not
  by_cases near : p.address.toNat ≤ b.finish + limits.gap.toNat
  · right
    have := not near
    omega
  · left
    omega

/-- A point that a batch does not admit, and that does not lie before its own, ends after it. -/
theorem WellFormed.mark_lt (h : b.WellFormed limits) (refused : b.admits limits p = false)
    (later : ∀ q ∈ b.points, q.key ≤ p.key) : b.mark < p.mark := by
  obtain ⟨q, hq, -⟩ := h.start_mem
  have place := later q hq
  simp only [Point.key, Prod.Lex.toLex_le_toLex, h.slave q hq, h.function q hq] at place
  simp only [Point.mark, Batch.mark, Prod.Lex.toLex_lt_toLex]
  rcases place with slave | ⟨slave, function | ⟨function, -⟩⟩
  · exact .inl slave
  · exact .inr ⟨slave, .inl function⟩
  · refine .inr ⟨slave, .inr ⟨function, ?_⟩⟩
    have width := p.width_pos
    have span := UInt16.le_iff_toNat_le.mp h.quantity_le
    have function' : p.function = b.function := (UInt8.toNat_inj.mp function).symm
    rcases h.of_refused refused (UInt8.toNat_inj.mp slave).symm function' with hole | long
    · simp only [Point.finish]
      omega
    · rw [function'] at long
      simp only [Batch.finish]
      omega

end Batch

/-! ## Greedy batches -/

/-- Batches in the order of their points, each of which begins with a point that the one before
did not admit. -/
structure Greedy (limits : Limits) (batches : List Batch) : Prop where
  wellFormed : ∀ b ∈ batches, b.WellFormed limits
  ordered : (batches.flatMap Batch.points).Pairwise fun p q => p.key ≤ q.key
  refused : batches.IsChain fun b c =>
    ∃ p rest, c.points = p :: rest ∧ b.admits limits p = false

theorem prefix_groupFrom (limits : Limits) (opened : Batch) (points : List Point) :
    ∀ b ∈ (groupFrom limits opened points).head?, opened.points <+: b.points := by
  induction points generalizing opened with
  | nil => simp [groupFrom]
  | cons p rest ih =>
    intro b hb
    simp only [groupFrom] at hb
    split at hb
    · exact (List.prefix_append opened.points [p]).trans (ih (opened.extend p) b hb)
    · simp only [List.head?_cons, Option.mem_def, Option.some.injEq] at hb
      rw [hb]

theorem isChain_groupFrom (limits : Limits) (opened : Batch) (points : List Point) :
    (groupFrom limits opened points).IsChain fun b c =>
      ∃ p rest, c.points = p :: rest ∧ b.admits limits p = false := by
  induction points generalizing opened with
  | nil => simp [groupFrom]
  | cons p rest ih =>
    simp only [groupFrom]
    split
    · exact ih (opened.extend p)
    next refused =>
      rw [List.isChain_cons]
      refine ⟨fun c hc => ?_, ih _⟩
      obtain ⟨more, points⟩ := prefix_groupFrom limits _ rest c hc
      exact ⟨p, more, points.symm, by simpa using refused⟩

theorem greedy_groupPoints {limits : Limits} {points : List Point}
    (fit : ∀ p ∈ points, ¬ p.Unfit limits)
    (sorted : points.Pairwise fun p q => p.key ≤ q.key) :
    Greedy limits (groupPoints limits points) := by
  obtain ⟨flat, each⟩ := groupPoints_spec fit sorted
  refine ⟨fun b hb => ?_, by rw [flat]; exact sorted, ?_⟩
  · obtain ⟨i, hi⟩ := List.getElem?_of_mem hb
    exact (each i b hi).2
  · cases points with
    | nil => simp [groupPoints]
    | cons p rest => exact isChain_groupFrom limits _ rest

namespace Greedy

variable {limits : Limits} {batches before after : List Batch} {b c d : Batch} {p q : Point}
  {taken others : List Point}

theorem tail (h : Greedy limits (b :: after)) : Greedy limits after where
  wellFormed := fun c hc => h.wellFormed c (by simp [hc])
  ordered := by
    have := h.ordered
    rw [List.flatMap_cons] at this
    exact (List.pairwise_append.mp this).2.1
  refused := h.refused.tail

/-- Each batch ends before the first points of all later ones do, in the order of marks. -/
theorem mark_lt (h : Greedy limits batches) :
    batches.Pairwise fun b c => ∀ p rest, c.points = p :: rest → b.mark < p.mark := by
  induction batches with
  | nil => exact .nil
  | cons b after ih =>
    have later := ih h.tail
    refine List.pairwise_cons.mpr ⟨?_, later⟩
    cases after with
    | nil => simp
    | cons c more =>
      obtain ⟨p, rest, points, refused⟩ := (List.isChain_cons_cons.mp h.refused).1
      have ordered := h.ordered
      rw [List.flatMap_cons, List.flatMap_cons, points] at ordered
      have place : ∀ q ∈ b.points, q.key ≤ p.key := fun q hq =>
        (List.pairwise_append.mp ordered).2.2 q hq p (by simp)
      have first : b.mark < p.mark := (h.wellFormed b (by simp)).mark_lt refused place
      have reached : p.mark ≤ c.mark := (h.wellFormed c (by simp)).mark_le (by simp [points])
      intro d hd q others here
      rcases List.mem_cons.mp hd with rfl | hd
      · rw [points] at here
        cases here
        exact first
      · exact (first.trans_le reached).trans ((List.pairwise_cons.mp later).1 d hd q others here)

/-- No point of a batch or of an earlier one ends after the batch. -/
theorem mark_le (h : Greedy limits (before ++ b :: after)) :
    ∀ p ∈ (before ++ [b]).flatMap Batch.points, p.mark ≤ b.mark := by
  intro p hp
  obtain ⟨c, hc, hp⟩ := List.mem_flatMap.mp hp
  have own : p.mark ≤ c.mark := (h.wellFormed c (by simp at hc ⊢; tauto)).mark_le hp
  rcases List.mem_append.mp hc with hc | hc
  · have wellFormed := h.wellFormed b (by simp)
    obtain ⟨q, rest, points⟩ := List.exists_cons_of_ne_nil wellFormed.nonempty
    have lt : c.mark < q.mark :=
      (List.pairwise_append.mp h.mark_lt).2.2 c hc b (by simp) q rest points
    exact own.trans (lt.le.trans (wellFormed.mark_le (by simp [points])))
  · rw [List.mem_singleton.mp hc] at own
    exact own

/-- The first point of a batch lies at its start. -/
theorem head_address (h : Greedy limits batches) (hb : b ∈ batches)
    (points : b.points = p :: taken) : p.address = b.start := by
  have wellFormed := h.wellFormed b hb
  have mem : p ∈ b.points := by simp [points]
  obtain ⟨q, hq, start⟩ := wellFormed.start_mem
  have ordered := (List.pairwise_flatMap.mp h.ordered).1 b hb
  rw [points] at hq ordered
  rcases List.mem_cons.mp hq with rfl | hq
  · exact start
  · have q' : q ∈ b.points := by simp [points, hq]
    have le := Point.address_le_of_key_le
      ((wellFormed.slave p mem).trans (wellFormed.slave q q').symm)
      ((wellFormed.function p mem).trans (wellFormed.function q q').symm)
      ((List.pairwise_cons.mp ordered).1 q hq)
    rw [start] at le
    exact UInt16.le_antisymm (UInt16.le_iff_toNat_le.mpr le) (wellFormed.start_le p mem)

/-- What a batch refuses divides the points: none of those before ends after the batch, and
those after it lie no lower.  Among these, first points of batches end no lower. -/
theorem divided (h : Greedy limits (before ++ b :: c :: after)) :
    ∃ r, b.admits limits r = false ∧ (∀ x ∈ b.points, x.key ≤ r.key) ∧
      (∀ x ∈ (before ++ b :: c :: after).flatMap Batch.points,
        x.mark ≤ b.mark ∨ r.key ≤ x.key) ∧
      ∀ d ∈ c :: after, ∀ q others, d.points = q :: others → r.key ≤ q.key ∧ r.mark ≤ q.mark := by
  have cut : before ++ b :: c :: after = (before ++ [b]) ++ c :: after := by simp
  obtain ⟨r, rest, points, refused⟩ :=
    (List.isChain_cons_cons.mp (List.isChain_append.mp h.refused).2.1).1
  have ordered := h.ordered
  rw [cut, List.flatMap_append] at ordered
  obtain ⟨-, behind, across⟩ := List.pairwise_append.mp ordered
  have high : ∀ x ∈ (c :: after).flatMap Batch.points, r.key ≤ x.key := by
    intro x hx
    simp only [List.flatMap_cons, points, List.cons_append] at hx behind
    rcases List.mem_cons.mp hx with rfl | hx
    · exact le_refl _
    · exact (List.pairwise_cons.mp behind).1 x hx
  refine ⟨r, refused, fun x hx => ?_, fun x hx => ?_, fun d hd q others head => ⟨?_, ?_⟩⟩
  · exact across x (by simp [hx]) r (by simp [points])
  · rw [cut, List.flatMap_append] at hx
    exact (List.mem_append.mp hx).imp (h.mark_le x) (high x)
  · exact high q (List.mem_flatMap.mpr ⟨d, hd, by simp [head]⟩)
  · rcases List.mem_cons.mp hd with rfl | hd
    · rw [points] at head
      cases head
      exact le_refl _
    · have inner := (List.pairwise_append.mp h.mark_lt).2.1
      have lt := (List.pairwise_cons.mp (List.pairwise_cons.mp inner).2).1 d hd q others head
      exact ((h.wellFormed c (by simp)).mark_le (by simp [points])).trans lt.le

/-- No valid group holds the first points of two batches. -/
theorem apart (h : Greedy limits batches) (split : batches = before ++ b :: after)
    (hd : d ∈ after) (head : b.points = p :: taken) (head' : d.points = q :: others)
    {g : List Point} (valid : ValidGroup limits g)
    (inside : ∀ x ∈ g, x ∈ batches.flatMap Batch.points) (hp : p ∈ g) : q ∉ g := by
  intro hq
  subst split
  obtain ⟨c, more, rfl⟩ := List.exists_cons_of_ne_nil (List.ne_nil_of_mem hd)
  have wellFormed := h.wellFormed b (by simp)
  have own : p ∈ b.points := by simp [head]
  obtain ⟨r, refused, low, sides, firsts⟩ := h.divided
  obtain ⟨key, mark⟩ := firsts d hd q others head'
  -- The refused point lies between the two, so the whole group is in its table.
  obtain ⟨slave, function⟩ := valid.table p hp q hq
  obtain ⟨slave', function'⟩ := Point.table_of_key_le slave function (low p own) key
  have table : ∀ x ∈ g, r.slave = x.slave ∧ r.function = x.function := fun x hx =>
    ⟨slave'.trans (valid.table p hp x hx).1, function'.trans (valid.table p hp x hx).2⟩
  rcases wellFormed.of_refused refused (slave'.trans (wellFormed.slave p own))
    (function'.trans (wellFormed.function p own)) with hole | long
  · -- The group has a point below the hole, so the later first point would lie below it too.
    have ends : ∀ x ∈ g, x.address.toNat < r.address.toNat → x.finish ≤ b.finish := by
      intro x hx below
      rcases sides x (inside x hx) with reached | later
      · have same : x.slave = b.slave ∧ x.function = b.function := by
          rw [← wellFormed.slave p own, ← wellFormed.function p own]
          exact valid.table x hx p hp
        simpa [Point.mark, Batch.mark, Prod.Lex.toLex_le_toLex, same.1, same.2] using reached
      · have := Point.address_le_of_key_le (table x hx).1 (table x hx).2 later
        omega
    have start : p.address.toNat < r.address.toNat := by
      have := wellFormed.finish_ge p own
      simp only [Point.finish] at this
      omega
    have := valid.below hole ends hp start q hq
    have := Point.address_le_of_key_le (table q hq).1 (table q hq).2 key
    omega
  · -- The later first point ends no lower than the refused one, which is past the span already.
    have reached := Point.finish_le_of_mark_le (table q hq).1 (table q hq).2 mark
    have span := valid.span p hp q hq
    rw [← (table q hq).2, h.head_address (by simp) head] at span
    omega

/-- There are at least as many valid groups as batches: each batch has its first point in a group
of its own. -/
theorem length_le (h : Greedy limits batches) {groups : List (List Point)}
    (partition : groups.flatten.Perm (batches.flatMap Batch.points))
    (valid : ∀ g ∈ groups, ValidGroup limits g) : batches.length ≤ groups.length := by
  have found : ∀ i : Fin batches.length, ∃ (j : Fin groups.length) (p : Point)
      (rest : List Point), batches[i].points = p :: rest ∧ p ∈ groups.get j := by
    intro i
    have mem : batches[i] ∈ batches := List.getElem_mem i.isLt
    obtain ⟨p, rest, head⟩ := List.exists_cons_of_ne_nil (h.wellFormed _ mem).nonempty
    have placed : p ∈ groups.flatten :=
      partition.mem_iff.mpr (List.mem_flatMap.mpr ⟨_, mem, head ▸ List.mem_cons_self⟩)
    obtain ⟨g, hg, hp⟩ := List.mem_flatten.mp placed
    obtain ⟨j, hj, rfl⟩ := List.getElem_of_mem hg
    exact ⟨⟨j, hj⟩, p, rest, head, hp⟩
  choose home first rest head placed using found
  have apart : ∀ i j : Fin batches.length, i < j → home i ≠ home j := by
    intro i j before same
    have split : batches = batches.take i ++ batches[i] :: batches.drop (i + 1) := by simp
    have behind : batches[j] ∈ batches.drop (i + 1) := by
      rw [List.mem_drop_iff_getElem]
      exact ⟨j - (i + 1), by omega, by simp; congr 1; omega⟩
    have inside : ∀ x ∈ groups.get (home i), x ∈ batches.flatMap Batch.points := fun x hx =>
      partition.mem_iff.mp (List.mem_flatten.mpr ⟨_, List.get_mem _ _, hx⟩)
    have both : first j ∈ groups.get (home i) := same ▸ placed j
    exact h.apart split behind (head i) (head j) (valid _ (List.get_mem _ _)) inside (placed i) both
  have injective : Function.Injective home := by
    intro i j same
    rcases lt_trichotomy i j with before | here | behind
    · exact absurd same (apart i j before)
    · exact here
    · exact absurd same.symm (apart j i behind)
  simpa using Fintype.card_le_of_injective home injective

end Greedy

/-! ## Plans -/

/-- The points of a batch are a valid group. -/
theorem Batch.WellFormed.validGroup {limits : Limits} {b : Batch} (h : b.WellFormed limits)
    (ordered : b.points.Pairwise fun p q => p.key ≤ q.key) : ValidGroup limits b.points where
  table := fun p hp q hq =>
    ⟨(h.slave p hp).trans (h.slave q hq).symm, (h.function p hp).trans (h.function q hq).symm⟩
  bridged := by
    obtain ⟨first, rest, points⟩ := List.exists_cons_of_ne_nil h.nonempty
    rw [points] at ordered
    refine ⟨first, rest, by rw [points], ?_, ?_⟩
    · refine ordered.imp_of_mem fun {p q} hp hq le => UInt16.le_iff_toNat_le.mpr ?_
      rw [← points] at hp hq
      exact Point.address_le_of_key_le ((h.slave p hp).trans (h.slave q hq).symm)
        ((h.function p hp).trans (h.function q hq).symm) le
    · have covered : reach [first] = first.finish := by simp
      rw [← covered]
      apply bridged_of_reach (by simp)
      intro earlier p later split
      exact h.gap_le earlier p later (by rw [points, ← split]; rfl)
  span := by
    intro p hp q hq
    have start := UInt16.le_iff_toNat_le.mp (h.start_le p hp)
    have finish := h.finish_ge q hq
    have span := UInt16.le_iff_toNat_le.mp h.quantity_le
    rw [h.function q hq]
    simp only [Batch.finish] at finish
    omega

/-- The batches of a plan divide the points into valid groups, and no division into valid groups
has fewer. -/
theorem plan_size_le {limits : Limits} {channel : UInt16} {points : List Point} {result : Plan}
    (planned : plan limits channel points = .ok result) :
    ((result.batches.map Batch.points).flatten.Perm points ∧
        ∀ g ∈ result.batches.map Batch.points, ValidGroup limits g) ∧
      ∀ groups : List (List Point), groups.flatten.Perm points →
        (∀ g ∈ groups, ValidGroup limits g) → result.size ≤ groups.length := by
  obtain ⟨fit, rfl⟩ := plan_eq_ok_iff.mp planned
  have sorted := stablySorted_sortPoints points
  have fit' : ∀ p ∈ sortPoints points, ¬ p.Unfit limits := fun p hp =>
    fit p (sorted.perm.mem_iff.mp hp)
  have greedy := greedy_groupPoints fit' sorted.ordered
  have all := (groupPoints_spec fit' sorted.ordered).1
  refine ⟨⟨?_, ?_⟩, fun groups partition valid => ?_⟩
  · rw [← List.flatMap_def, all]
    exact sorted.perm
  · intro g hg
    obtain ⟨b, hb, rfl⟩ := List.mem_map.mp hg
    exact (greedy.wellFormed b hb).validGroup ((List.pairwise_flatMap.mp greedy.ordered).1 b hb)
  · apply greedy.length_le _ valid
    rw [all]
    exact partition.trans sorted.perm.symm

/-- A wide point that covers narrow ones, and points behind it. -/
def covering : List Point := [
  { id := 1, address := 0, type := .uint16 },
  { id := 2, address := 0, type := .float64 },
  { id := 3, address := 3, type := .uint16 },
  { id := 4, address := 4, type := .uint16 },
  { id := 5, address := 6, type := .uint16 }]

/-- Another division of these points, which does not follow their order. -/
def covering.groups : List (List Point) :=
  [[covering[4]], [covering[2], covering[3]], [covering[0], covering[1]]]

/-- With four units and no hole the plan has three batches, and so has any division at least. -/
theorem covering_size_le :
    plan { registers := 4, gap := 0 } 7 covering =
        .ok ⟨groupPoints { registers := 4, gap := 0 } covering⟩ ∧
      (groupPoints { registers := 4, gap := 0 } covering).length = 3 ∧
      covering.groups.flatten.Perm covering ∧
      (∀ g ∈ covering.groups, ValidGroup { registers := 4, gap := 0 } g) ∧
      (groupPoints { registers := 4, gap := 0 } covering).length ≤ covering.groups.length := by
  have fit : ∀ p ∈ covering, ¬ p.Unfit { registers := 4, gap := 0 } := by decide
  have sorted : sortPoints covering = covering := List.mergeSort_of_pairwise (by decide)
  have planned : plan { registers := 4, gap := 0 } 7 covering =
      .ok ⟨groupPoints { registers := 4, gap := 0 } covering⟩ :=
    plan_eq_ok_iff.mpr ⟨fit, by rw [sorted]⟩
  have partition : covering.groups.flatten.Perm covering := by decide
  have valid : ∀ g ∈ covering.groups, ValidGroup { registers := 4, gap := 0 } g := by
    intro g hg
    simp only [covering.groups, List.mem_cons, List.not_mem_nil, or_false] at hg
    rcases hg with rfl | rfl | rfl
    · exact ⟨by decide, ⟨_, _, .refl _, by decide, by decide⟩, by decide⟩
    · exact ⟨by decide, ⟨_, _, .refl _, by decide, by decide⟩, by decide⟩
    · exact ⟨by decide, ⟨_, _, .refl _, by decide, by decide⟩, by decide⟩
  exact ⟨planned, by decide, partition, valid, (plan_size_le planned).2 _ partition valid⟩

end Fieldbus
