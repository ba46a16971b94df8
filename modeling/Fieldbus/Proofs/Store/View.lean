import Fieldbus.Store

/-!
# What writes leave in the store

Of several values for a key the last one counts, within a write and among writes.
`StoreWrite.valueOf?` is the value that the writes of one time leave at a key, and
`Store.get?_writeAll` says that the store shows just that.
-/

namespace Fieldbus

/-! ## The last value -/

/-- The last value that passes. -/
def lastValue? {α β : Type} (f : α → Option β) (items : List α) : Option β :=
  items.reverse.findSome? f

@[simp] theorem lastValue?_nil {α β : Type} (f : α → Option β) : lastValue? f [] = none := rfl

theorem lastValue?_cons {α β : Type} (f : α → Option β) (a : α) (items : List α) :
    lastValue? f (a :: items) = (lastValue? f items).or (f a) := by
  simp only [lastValue?, List.reverse_cons, List.findSome?_append, List.findSome?_cons,
    List.findSome?_nil]
  cases f a <;> rfl

theorem lastValue?_append {α β : Type} (f : α → Option β) (earlier later : List α) :
    lastValue? f (earlier ++ later) = (lastValue? f later).or (lastValue? f earlier) := by
  simp [lastValue?, List.findSome?_append]

theorem exists_of_lastValue?_eq_some {α β : Type} {f : α → Option β} {items : List α} {b : β}
    (h : lastValue? f items = some b) : ∃ a ∈ items, f a = some b := by
  obtain ⟨a, ha, hf⟩ := List.exists_of_findSome?_eq_some h
  exact ⟨a, List.mem_reverse.mp ha, hf⟩

theorem lastValue?_eq_none_iff {α β : Type} {f : α → Option β} {items : List α} :
    lastValue? f items = none ↔ ∀ a ∈ items, f a = none := by
  simp [lastValue?, List.findSome?_eq_none_iff]

/-- The value that is the only one is the last one. -/
theorem lastValue?_eq_some {α β : Type} {f : α → Option β} {items : List α} {a : α} {b : β}
    (ha : a ∈ items) (value : f a = some b) (only : ∀ x ∈ items, ∀ y, f x = some y → y = b) :
    lastValue? f items = some b := by
  cases last : lastValue? f items with
  | none =>
    rw [lastValue?_eq_none_iff.mp last a ha] at value
    cases value
  | some y =>
    obtain ⟨x, hx, found⟩ := exists_of_lastValue?_eq_some last
    rw [only x hx y found]

theorem lastValue?_filterMap {α β γ : Type} (f : β → Option γ) (g : α → Option β)
    (items : List α) :
    lastValue? f (items.filterMap g) = lastValue? (fun a => (g a).bind f) items := by
  induction items with
  | nil => rfl
  | cons a rest ih =>
    rw [lastValue?_cons, ← ih]
    cases given : g a with
    | none => simp [given]
    | some b => simp [given, lastValue?_cons]

/-! ## Writes -/

/-- The value that a write leaves at a key. -/
def StoreWrite.valueAt? (w : StoreWrite) (key : StoreKey) : Option Binary64 :=
  if w.channel = key.channel ∧ w.category = key.category then
    lastValue? (fun entry => if entry.1 = key.point then some entry.2 else none) w.values
  else none

/-- The value that writes leave at a key. -/
def StoreWrite.valueOf? (writes : List StoreWrite) (key : StoreKey) : Option Binary64 :=
  lastValue? (·.valueAt? key) writes

namespace Store

theorem get?_foldl_put (channel : UInt16) (category : Category) (time : Int) (key : StoreKey)
    (values : List (UInt32 × Binary64)) (s : Store) :
    (values.foldl (fun s (point, value) => s.put ⟨channel, category, point⟩ ⟨value, time⟩)
        s).get? key =
      ((StoreWrite.valueAt? ⟨channel, category, values⟩ key).map (⟨·, time⟩)).or (s.get? key) := by
  induction values generalizing s with
  | nil => simp [StoreWrite.valueAt?]
  | cons entry rest ih =>
    obtain ⟨point, value⟩ := entry
    rw [List.foldl_cons, ih, get?_put]
    simp only [StoreWrite.valueAt?, lastValue?_cons]
    by_cases table : channel = key.channel ∧ category = key.category
    · obtain ⟨rfl, rfl⟩ := table
      by_cases here : point = key.point
      · subst here
        cases lastValue? _ rest <;> simp
      · have elsewhere : (⟨key.channel, key.category, point⟩ : StoreKey) ≠ key := by
          intro same
          exact here (congrArg StoreKey.point same)
        simp [here, elsewhere]
    · have elsewhere : (⟨channel, category, point⟩ : StoreKey) ≠ key := by
        intro same
        subst same
        exact table ⟨rfl, rfl⟩
      simp [table, elsewhere]

theorem get?_write (s : Store) (w : StoreWrite) (time : Int) (key : StoreKey) :
    (s.write w time).get? key = ((w.valueAt? key).map (⟨·, time⟩)).or (s.get? key) :=
  get?_foldl_put w.channel w.category time key w.values s

/-- A key shows the last value written to it, and what it showed before if there is none. -/
theorem get?_writeAll (s : Store) (writes : List StoreWrite) (time : Int) (key : StoreKey) :
    (s.writeAll writes time).get? key =
      ((StoreWrite.valueOf? writes key).map (⟨·, time⟩)).or (s.get? key) := by
  induction writes generalizing s with
  | nil => rfl
  | cons w rest ih =>
    have first := ih (s.write w time)
    rw [get?_write] at first
    simp only [writeAll, List.foldl_cons] at first ⊢
    rw [first, StoreWrite.valueOf?, StoreWrite.valueOf?, lastValue?_cons]
    cases lastValue? _ rest <;> simp

end Store

/-! ## Where values come from -/

/-- The value of a reading, if it is one for the key. -/
def Reading.valueAt? (key : StoreKey) (r : Reading) : Option Binary64 :=
  if r.category = key.category ∧ r.point = key.point then some r.value else none

/-- The write of a cycle for one category, if the category has readings. -/
def groupWrite? (channel : UInt16) (readings : List Reading) (category : Category) :
    Option StoreWrite :=
  match readings.filter fun r => r.category = category with
  | [] => none
  | group => some ⟨channel, category, group.map fun r => (r.point, r.value)⟩

theorem cycleWrites_eq (channel : UInt16) (readings : List Reading) :
    cycleWrites channel readings = Category.all.filterMap (groupWrite? channel readings) := rfl

/-- What the readings of one category leave at a key. -/
theorem valueAt?_groupWrite? (channel : UInt16) (readings : List Reading) (category : Category)
    (key : StoreKey) :
    (groupWrite? channel readings category).bind (StoreWrite.valueAt? · key) =
      if category = key.category then
        if channel = key.channel then lastValue? (Reading.valueAt? key) readings else none
      else none := by
  have whole : (groupWrite? channel readings category).bind (StoreWrite.valueAt? · key) =
      StoreWrite.valueAt? ⟨channel, category, (readings.filter fun r =>
        r.category = category).map fun r => (r.point, r.value)⟩ key := by
    unfold groupWrite?
    split
    next empty => simp [StoreWrite.valueAt?, empty]
    next => rfl
  rw [whole]
  by_cases own : category = key.category
  · subst own
    rw [if_pos rfl]
    simp only [StoreWrite.valueAt?, and_true]
    rw [← List.filterMap_eq_map, ← List.filterMap_eq_filter, List.filterMap_filterMap,
      lastValue?_filterMap]
    congr 2
    funext r
    by_cases same : r.category = key.category
    · simp [Reading.valueAt?, Option.guard, same]
    · simp [Reading.valueAt?, Option.guard, same]
  · simp [StoreWrite.valueAt?, own]

/-- What a cycle leaves at a key is the last of its readings for the key. -/
theorem valueOf?_cycleWrites (channel : UInt16) (readings : List Reading) (key : StoreKey) :
    StoreWrite.valueOf? (cycleWrites channel readings) key =
      if channel = key.channel then lastValue? (Reading.valueAt? key) readings else none := by
  rw [StoreWrite.valueOf?, cycleWrites_eq, lastValue?_filterMap]
  simp only [valueAt?_groupWrite?]
  -- The categories are listed once each.
  cases key.category with
  | _ => simp [Category.all, lastValue?_cons]

/-- What a cycle leaves at a key is one of its readings. -/
theorem reading_of_valueOf?_cycleWrites {channel : UInt16} {readings : List Reading}
    {key : StoreKey} {v : Binary64}
    (h : StoreWrite.valueOf? (cycleWrites channel readings) key = some v) :
    channel = key.channel ∧
      ∃ r ∈ readings, r.category = key.category ∧ r.point = key.point ∧ r.value = v := by
  rw [valueOf?_cycleWrites] at h
  split at h
  next own =>
    obtain ⟨r, hr, value⟩ := exists_of_lastValue?_eq_some h
    unfold Reading.valueAt? at value
    split at value
    next place =>
      cases value
      exact ⟨own, r, hr, place.1, place.2, rfl⟩
    next => cases value
  next => cases h

theorem valueOf?_ackWrite (channel : UInt16) (p : Point) (value : Binary64) (key : StoreKey) :
    StoreWrite.valueOf? [ackWrite channel p value] key =
      if (⟨channel, p.category, p.id⟩ : StoreKey) = key then some value else none := by
  simp only [StoreWrite.valueOf?, lastValue?_cons, lastValue?_nil, Option.none_or,
    StoreWrite.valueAt?, ackWrite]
  by_cases same : (⟨channel, p.category, p.id⟩ : StoreKey) = key
  · subst same
    simp
  · rw [if_neg same]
    split
    next table =>
      have elsewhere : p.id ≠ key.point := by
        intro point
        obtain ⟨rfl, category⟩ := table
        exact same (by rw [category, point])
      simp [elsewhere]
    next => rfl

end Fieldbus
